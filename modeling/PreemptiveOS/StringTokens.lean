import Mathlib.Data.List.GetD
import PreemptiveOS.ByteMemory

/-!
# Cutting a string at delimiters

`strtok` of the library and `my_strtok` of the kernel write a zero over the next
delimiter of a string and remember where it was. The first call gets the string, all
others the null pointer. Every delimiter ends a piece, so that two delimiters next to
each other have an empty piece between them, and so have a delimiter and the end.
-/

set_option autoImplicit false

namespace PreemptiveOS.StringTokens
open ByteMemory

def textAt (cells : List Byte) (i : ℕ) : List Byte := (cells.drop i).takeWhile (fun b => b ≠ 0)

def chrLoop : List Byte → BitVec 32 → Option ℕ
  | [], _ => none
  | b::bs, c => if b.signExtend 32 = c then some 0 else (chrLoop bs c).map (fun i => i+1)

def strchr (cs : Option (List Byte)) (c : BitVec 32) : Option ℕ := cs.bind (fun s => chrLoop s c)

def myStrchr (cs : Option (List Byte)) (c : BitVec 32) : Option ℕ := cs.bind (fun s => chrLoop s c)

structure Strtok where
  nextS : ℕ
  done : Bool

section
variable (chr : Option (List Byte) → BitVec 32 → Option ℕ)

def scan (ct : List Byte) : List Byte → Option ℕ
  | [] => none
  | b::bs =>
    if chr (some ct) (b.signExtend 32) = none ∧ b ≠ 0 then (scan ct bs).map (fun k => k+1)
    else some 0

def cut (ct : List Byte) (s : ℕ) (cells : List Byte) : Option (Option ℕ × List Byte × Strtok) :=
  (scan chr ct (cells.drop s)).map (fun k =>
    (some s,cells.set (s+k) 0,⟨s+k,cells.getD (s+k) 0 = 0⟩))

def tokenWith (ct : List Byte) (s : Option ℕ) (cells : List Byte) (t : Strtok) :
    Option (Option ℕ × List Byte × Strtok) :=
  match s with
  | some a => cells[a]?.bind (fun b =>
      if b = 0 then some (none,cells,{ t with done := true }) else cut chr ct a cells)
  | none => if t.done then some (none,cells,t) else cut chr ct (t.nextS+1) cells

def tokensWith (ct : List Byte) : ℕ → Option ℕ → List Byte → Strtok →
    Option (List (ℕ × List Byte) × List Byte)
  | 0, _, _, _ => none
  | n+1, s, cells, t => (tokenWith chr ct s cells t).bind (fun r =>
      match r.1 with
      | none => some ([],r.2.1)
      | some a => (tokensWith ct n none r.2.1 r.2.2).map (fun rest =>
          ((a,textAt r.2.1 a)::rest.1,rest.2)))

end

def strtok := tokenWith strchr
def myStrtok := tokenWith myStrchr
def strtokCalls := tokensWith strchr
def myStrtokCalls := tokensWith myStrchr

def pieces (ct text : List Byte) : List (List Byte) := text.splitOnP (fun b => decide (b ∈ ct))

theorem chrLoop_none_iff (cs : List Byte) (b : Byte) :
    chrLoop cs (b.signExtend 32) = none ↔ b ∉ cs := by
  induction cs with
  | nil => simp [chrLoop]
  | cons c cs ih =>
    rw [chrLoop, List.mem_cons]
    by_cases h : c = b
    · simp [h]
    · have hne : c.signExtend 32 ≠ b.signExtend 32 := by
        intro he
        have hint := congrArg BitVec.toInt he
        rw [BitVec.toInt_signExtend_of_le (by decide),
          BitVec.toInt_signExtend_of_le (by decide)] at hint
        exact h (BitVec.toInt_inj.mp hint)
      rw [if_neg hne, Option.map_eq_none_iff, ih]
      simp [Ne.symm h]

theorem pieces_length (ct text : List Byte) :
    (pieces ct text).length = text.countP (fun b => decide (b ∈ ct))+1 := by
  induction text with
  | nil => rfl
  | cons b text ih =>
    rw [pieces] at ih
    rw [pieces, List.splitOnP_cons_eq_if_modifyHead, List.countP_cons]
    split_ifs with h
    · rw [List.length_cons, ih]
    · rw [List.length_modifyHead, ih]

variable {b : Byte} {text : List Byte}

section
variable (chr : Option (List Byte) → BitVec 32 → Option ℕ)
  (hchr : ∀ ct b, chr (some ct) (b.signExtend 32) = none ↔ b ∉ ct) (ct : List Byte)
include hchr

theorem scan_text (rest : List Byte) (htext : ∀ c ∈ text, c ∉ ct ∧ c ≠ 0) (hb : b ∈ ct ∨ b = 0) :
    scan chr ct (text++b::rest) = some text.length := by
  induction text with
  | nil =>
    rw [List.nil_append, scan, if_neg]
    · rfl
    · rw [hchr]
      tauto
  | cons c text ih =>
    have hc := htext c List.mem_cons_self
    rw [List.cons_append, scan, if_pos ⟨(hchr ct c).mpr hc.1,hc.2⟩,
      ih (fun d hd => htext d (List.mem_cons_of_mem c hd))]
    rfl

theorem cut_piece (before : List Byte) (rest : List Byte) (htext : ∀ c ∈ text, c ∉ ct ∧ c ≠ 0)
    (hb : b ∈ ct ∨ b = 0) :
    cut chr ct before.length (before++text++b::rest) =
      some (some before.length,before++text++0::rest,⟨before.length+text.length,b = 0⟩) := by
  have hlen : (before++text).length = before.length+text.length := List.length_append
  rw [cut, List.append_assoc, List.drop_left, scan_text chr hchr ct rest htext hb,
    Option.map_some, ← List.append_assoc, ← hlen, List.set_append_right _ _ le_rfl,
    List.getD_append_right _ _ _ _ le_rfl, Nat.sub_self]
  rfl

end

theorem textAt_piece (before : List Byte) (rest : List Byte) (htext : ∀ c ∈ text, c ≠ 0) :
    textAt (before++text++0::rest) before.length = text := by
  rw [textAt, List.append_assoc, List.drop_left, List.takeWhile_append_of_pos (by simpa using htext)]
  simp

theorem first_piece (ct text : List Byte) :
    (pieces ct text = [text] ∧ ∀ c ∈ text, c ∉ ct) ∨ ∃ piece d rest, text = piece++d::rest ∧
      (∀ c ∈ piece, c ∉ ct) ∧ d ∈ ct ∧ pieces ct text = piece::pieces ct rest := by
  cases hfind : text.find? (fun b => decide (b ∈ ct)) with
  | none =>
    have hall : ∀ c ∈ text, c ∉ ct := by simpa using List.find?_eq_none.mp hfind
    exact Or.inl ⟨List.splitOnP_eq_singleton (by simpa using hall),hall⟩
  | some d =>
    obtain ⟨hd,piece,rest,rfl,hpiece⟩ := List.find?_eq_some_iff_append.mp hfind
    refine Or.inr ⟨piece,d,rest,rfl,by simpa using hpiece,by simpa using hd,?_⟩
    exact List.splitOnP_append_cons_of_forall_mem (by simpa using hpiece) d hd rest

section
variable (chr : Option (List Byte) → BitVec 32 → Option ℕ)
  (hchr : ∀ ct b, chr (some ct) (b.signExtend 32) = none ↔ b ∉ ct) (ct : List Byte)
include hchr

/-- The calls from one that cuts a piece at the start of a text. What is in front of the text
stays as it is, and so do the pieces. -/
theorem tokens_pieces {n : ℕ} (before text : List Byte) {behind : List Byte} (s : Option ℕ)
    (t : Strtok)
    (hn : text.length+2 ≤ n) (htext : ∀ c ∈ text, c ≠ 0)
    (hcall : tokenWith chr ct s (before++text++0::behind) t =
      cut chr ct before.length (before++text++0::behind)) :
    ∃ rs tail, tokensWith chr ct n s (before++text++0::behind) t = some (rs,before++tail) ∧
      rs.map Prod.snd = pieces ct text ∧
      rs.map (fun r => textAt (before++tail) r.1) = pieces ct text := by
  induction n generalizing before text s t with
  | zero => omega
  | succ n ih =>
    rw [tokensWith, hcall]
    rcases first_piece ct text with ⟨hpieces,hall⟩ | ⟨piece,d,rest,rfl,hpiece,hd,hpieces⟩
    · -- the last piece: the next call returns the null pointer
      obtain ⟨k,rfl⟩ : ∃ k, n = k+1 := ⟨n-1,by omega⟩
      rw [cut_piece chr hchr ct before behind (fun c hc => ⟨hall c hc,htext c hc⟩) (Or.inr rfl),
        hpieces]
      have hat := textAt_piece before behind htext
      refine ⟨[(before.length,text)],text++0::behind,?_,rfl,?_⟩
      · rw [Option.bind_some]
        dsimp only
        rw [hat, ← List.append_assoc]
        rfl
      · rw [List.map_singleton, ← List.append_assoc, hat]
    · have hpiece' : ∀ c ∈ piece, c ∉ ct ∧ c ≠ 0 :=
        fun c hc => ⟨hpiece c hc,htext c (List.mem_append_left _ hc)⟩
      have hdz : d ≠ 0 := htext d (by simp)
      have hcells : before++(piece++d::rest)++0::behind = before++piece++d::(rest++0::behind) := by
        simp
      have hnext : before++piece++0::(rest++0::behind) = (before++piece++[0])++rest++0::behind := by
        simp
      have hlen : before.length+piece.length+1 = (before++piece++[0]).length := by simp; omega
      rw [hcells, cut_piece chr hchr ct before _ hpiece' (Or.inl hd), hpieces]
      obtain ⟨rs,tail,hrun,hnow,hend⟩ := ih (before++piece++[0]) rest none
        ⟨before.length+piece.length,false⟩ (by simp at hn; omega)
        (fun c hc => htext c (by simp [hc])) (by
          rw [tokenWith, ← hlen]
          rfl)
      have hfinal : before++piece++[0]++tail = before++(piece++0::tail) := by simp
      refine ⟨(before.length,piece)::rs,piece++0::tail,?_,?_,?_⟩
      · have hat := textAt_piece before (rest++0::behind) (fun c hc => (hpiece' c hc).2)
        rw [Option.bind_some]
        dsimp only
        rw [decide_eq_false hdz, hat, hnext, hrun, Option.map_some, hfinal]
      · rw [List.map_cons, hnow]
      · have hat := textAt_piece before tail (fun c hc => (hpiece' c hc).2)
        rw [List.append_assoc] at hat
        rw [List.map_cons, hat, ← hend, hfinal]

end

/-- The pieces that the calls return, of the library and of the kernel, are those between the
delimiters, one more than there are delimiters, and give the text with them. They stay in the
array. -/
theorem strtok_splits (ct before text behind : List Byte) (t t' : Strtok)
    (htext : ∀ c ∈ text, c ≠ 0) (hne : text ≠ []) :
    ∃ rs final, strtokCalls ct (text.length+2) (some before.length) (before++text++0::behind) t =
        some (rs,final) ∧
      myStrtokCalls ct (text.length+2) (some before.length) (before++text++0::behind) t' =
        some (rs,final) ∧
      rs.map Prod.snd = pieces ct text ∧ rs.map (fun r => textAt final r.1) = pieces ct text ∧
      rs.length = text.countP (fun b => decide (b ∈ ct))+1 ∧
      (List.zipWith (fun piece d => piece++d) (pieces ct text)
        ((text.filter (fun b => decide (b ∈ ct))).map (fun d => [d])++[[]])).flatten = text := by
  obtain ⟨b,text',rfl⟩ := List.exists_cons_of_ne_nil hne
  have hfirst : ∀ u, tokenWith strchr ct (some before.length) (before++b::text'++0::behind) u =
      cut strchr ct before.length (before++b::text'++0::behind) := by
    intro u
    have hb : (before++b::text'++0::behind)[before.length]? = some b := by simp
    rw [tokenWith, hb, Option.bind_some, if_neg (htext b List.mem_cons_self)]
  have hchr : ∀ ct b, strchr (some ct) (b.signExtend 32) = none ↔ b ∉ ct := chrLoop_none_iff
  obtain ⟨rs,tail,hrun,hnow,hend⟩ := tokens_pieces strchr hchr ct before
    (b::text') (some before.length) t le_rfl htext (hfirst t)
  refine ⟨rs,before++tail,hrun,?_,hnow,hend,?_,List.splitOnP_spec _⟩
  · rw [← hrun]
    show tokensWith strchr ct _ _ _ t' = _
    rw [tokensWith, tokensWith, hfirst, hfirst]
  · rw [← pieces_length, ← hnow, List.length_map]

/-- The text `,a,` is cut into three pieces. -/
theorem strtok_splits_commas : ∃ rs final,
    strtokCalls [44] 5 (some 0) [44,97,44,0,7] ⟨0,true⟩ = some (rs,final) ∧
      myStrtokCalls [44] 5 (some 0) [44,97,44,0,7] ⟨3,false⟩ = some (rs,final) ∧
      rs.map Prod.snd = [[],[97],[]] ∧ rs.map (fun r => textAt final r.1) = [[],[97],[]] ∧
      rs.length = 3 ∧ (List.zipWith (fun piece d => piece++d) (pieces [44] [44,97,44])
        (([44,97,44].filter (fun b => decide (b ∈ [44]))).map (fun d => [d])++[[]])).flatten =
          [44,97,44] :=
  strtok_splits [44] [] [44,97,44] [7] ⟨0,true⟩ ⟨3,false⟩ (by decide) (by decide)

end PreemptiveOS.StringTokens
