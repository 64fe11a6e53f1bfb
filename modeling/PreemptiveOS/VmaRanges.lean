import PreemptiveOS.Vmas

/-!
# The addresses that a VMA claims

A lookup takes both ends of a VMA as covered, swaps them when the VMA is
inverted, and lets a file VMA reach to its size in memory. The insertion and
the search for a free area compare other ends. What they do is described here
in terms of the ranges that a lookup sees.
-/

set_option autoImplicit false

namespace PreemptiveOS.VmaRanges
open ByteMemory Vmas

def lo (v : Vma) : ℕ := min v.startAddr.toNat (lookupEnd v).toNat

def hi (v : Vma) : ℕ := max v.startAddr.toNat (lookupEnd v).toNat

theorem covers_iff (addr : Word) (v : Vma) :
    covers addr v = true ↔ lo v ≤ addr.toNat ∧ addr.toNat ≤ hi v := by
  rw [covers, lo, hi]
  split_ifs with h
  · have hlt : (lookupEnd v).toNat < v.startAddr.toNat := h
    rw [decide_eq_true_eq, min_eq_right hlt.le, max_eq_left hlt.le]
    rfl
  · have hle : v.startAddr.toNat ≤ (lookupEnd v).toNat := not_lt.mp h
    rw [decide_eq_true_eq, min_eq_left hle, max_eq_right hle]
    rfl

theorem lo_le_start (v : Vma) : lo v ≤ v.startAddr.toNat := min_le_left _ _

theorem start_le_hi (v : Vma) : v.startAddr.toNat ≤ hi v := le_max_left _ _

theorem lo_le_hi (v : Vma) : lo v ≤ hi v := (lo_le_start v).trans (start_le_hi v)

def Below (v w : Vma) : Prop := hi v < lo w

theorem below_trans (u v w : Vma) (h : Below u v) (h' : Below v w) : Below u w := by
  have hv := lo_le_hi v
  unfold Below at *
  omega

instance : Trans Below Below Below := ⟨fun h h' => below_trans _ _ _ h h'⟩

def Apart (v w : Vma) : Prop := Below v w ∨ Below w v

def Proper (v : Vma) : Prop := lo v ≤ v.endAddr.toNat ∧ v.endAddr.toNat ≤ hi v

variable {vmas : List Vma}

theorem sorted_unique (h : vmas.Pairwise Below) (addr : Word) :
    vmas.Pairwise (fun v w => ¬ (covers addr v = true ∧ covers addr w = true)) := by
  apply h.imp
  rintro v w hvw ⟨hv,hw⟩
  rw [covers_iff] at hv hw
  unfold Below at hvw
  omega

variable {v : Vma}

theorem findVmaPrevFrom_entry (i : ℕ) {n : ℕ} (h : findVmaPrevFrom v i vmas = .entry n) :
    ∃ pre curr post, vmas = pre++curr::post ∧ n = i+pre.length ∧
      curr.endAddr ≤ v.startAddr ∧ ∀ next ∈ post.head?, v.endAddr ≤ next.startAddr := by
  induction vmas generalizing i with
  | nil => cases h
  | cons curr rest ih =>
    cases rest with
    | nil =>
      simp only [findVmaPrevFrom] at h
      split_ifs at h with _ hend
      obtain rfl : i = n := by simpa using h
      exact ⟨[],curr,[],rfl,rfl,hend,by simp⟩
    | cons next rest =>
      rw [findVmaPrevFrom] at h
      split_ifs at h with _ hfit
      · obtain rfl : i = n := by simpa using h
        exact ⟨[],curr,next::rest,rfl,rfl,hfit.1,by simpa using hfit.2⟩
      · obtain ⟨pre,curr',post,he,hn,hfits⟩ := ih (i+1) h
        refine ⟨curr::pre,curr',post,by rw [he, List.cons_append],?_,hfits⟩
        rw [hn, List.length_cons]
        omega

theorem findVmaPrevFrom_not_null (v : Vma) (i : ℕ) : findVmaPrevFrom v i vmas ≠ .null := by
  induction vmas generalizing i with
  | nil => simp [findVmaPrevFrom]
  | cons curr rest ih =>
    cases rest with
    | nil =>
      simp only [findVmaPrevFrom]
      split_ifs <;> simp
    | cons next rest =>
      have hrest := ih (i+1)
      rw [findVmaPrevFrom]
      split_ifs
      · simp
      · simp
      · exact hrest

theorem findVmaPrev_cases (v : Vma) (vmas : List Vma) :
    (findVmaPrev vmas v = .null → ∀ c ∈ vmas.head?, v.endAddr ≤ c.startAddr) ∧
    ∀ n, findVmaPrev vmas v = .entry n → findVmaPrevFrom v 0 vmas = .entry n := by
  cases vmas with
  | nil => simp [findVmaPrev]
  | cons first rest =>
    rw [findVmaPrev]
    split_ifs with hfirst
    · exact ⟨fun _ => by simpa using hfirst,by simp⟩
    · exact ⟨fun h => absurd h (findVmaPrevFrom_not_null v 0),fun _ h => h⟩

theorem insertIdx_behind (pre post : List Vma) (curr v : Vma) :
    (pre++curr::post).insertIdx (pre.length+1) v = pre++curr::v::post := by
  induction pre with
  | nil => rfl
  | cons c pre ih =>
    rw [List.cons_append, List.length_cons, List.insertIdx_succ_cons, ih, List.cons_append]

theorem addVma_split (vmas : List Vma) (vma : Vma) :
    (findVmaPrev vmas vma = .overlaps ∧ addVma vmas vma = .failed) ∨
    (findVmaPrev vmas vma = .unset ∧ addVma vmas vma = .wild) ∨
    ∃ vmas₁ vmas₂, vmas = vmas₁++vmas₂ ∧ addVma vmas vma = .added (vmas₁++vma::vmas₂) ∧
      findVmaPrev vmas vma = if vmas₁ = [] then .null else .entry (vmas₁.length-1) := by
  rw [addVma]
  cases hprev : findVmaPrev vmas vma with
  | overlaps => exact Or.inl ⟨rfl,rfl⟩
  | unset => exact Or.inr (Or.inl ⟨rfl,rfl⟩)
  | null => exact Or.inr (Or.inr ⟨[],vmas,rfl,rfl,rfl⟩)
  | entry i =>
    obtain ⟨pre,curr,post,rfl,rfl,_,_⟩ :=
      findVmaPrevFrom_entry 0 ((findVmaPrev_cases vma vmas).2 i hprev)
    refine Or.inr (Or.inr ⟨pre++[curr],post,by simp,?_,by simp⟩)
    simp only [Nat.zero_add, insertIdx_behind, List.append_assoc, List.singleton_append]

variable {c : Vma}

section
variable (v : Vma)

theorem below_head (hv : Proper v) (hc : Apart v c) (h : v.endAddr ≤ c.startAddr) : Below v c := by
  rcases hc with hc | hc
  · exact hc
  · have hle : v.endAddr.toNat ≤ c.startAddr.toNat := h
    have hs := start_le_hi c
    have hl := hv.1
    unfold Below at *
    omega

theorem above_curr (hp : Proper c) (hc : Apart v c) (h : c.endAddr ≤ v.startAddr) : Below c v := by
  rcases hc with hc | hc
  · have hle : c.endAddr.toNat ≤ v.startAddr.toNat := h
    have hs := start_le_hi v
    have hl := hp.1
    unfold Below at *
    omega
  · exact hc

theorem below_rest {post : List Vma} (hpost : post.Pairwise Below)
    (h : ∀ c ∈ post.head?, Below v c) : ∀ c ∈ post, Below v c := by
  cases post with
  | nil => simp
  | cons first post =>
    have hfirst := h first rfl
    intro c hc
    rcases List.mem_cons.mp hc with rfl | hc
    · exact hfirst
    · exact below_trans v first c hfirst ((List.pairwise_cons.mp hpost).1 c hc)

theorem added_place (vmas vmas' : List Vma) (hs : vmas.Pairwise Below) (hv : Proper v)
    (hp : ∀ c ∈ vmas, Proper c) (hap : ∀ c ∈ vmas, Apart v c)
    (h : addVma vmas v = .added vmas') :
    ∃ pre post, vmas = pre++post ∧ vmas' = pre++v::post ∧ (∀ c ∈ pre, Below c v) ∧
      ∀ c ∈ post, Below v c := by
  obtain ⟨hnull,hentry⟩ := findVmaPrev_cases v vmas
  rw [addVma] at h
  cases hprev : findVmaPrev vmas v with
  | overlaps => simp [hprev] at h
  | unset => simp [hprev] at h
  | null =>
    obtain rfl : v::vmas = vmas' := by simpa [hprev] using h
    refine ⟨[],vmas,rfl,rfl,by simp,below_rest v hs ?_⟩
    intro c hc
    exact below_head v hv (hap c (List.mem_of_mem_head? hc)) (hnull hprev c hc)
  | entry n =>
    obtain rfl : vmas.insertIdx (n+1) v = vmas' := by simpa [hprev] using h
    obtain ⟨pre,curr,post,rfl,rfl,hcurr,hnext⟩ :=
      findVmaPrevFrom_entry 0 (hentry n hprev)
    have hmid : curr ∈ pre++curr::post := List.mem_append_right _ List.mem_cons_self
    have habove := above_curr v (hp curr hmid) (hap curr hmid) hcurr
    obtain ⟨_,hright,hcross⟩ := List.pairwise_append.mp hs
    refine ⟨pre++[curr],post,by simp,?_,?_,below_rest v (List.pairwise_cons.mp hright).2 ?_⟩
    · rw [Nat.zero_add, insertIdx_behind, List.append_assoc]
      rfl
    · intro c hc
      rcases List.mem_append.mp hc with hc | hc
      · exact below_trans c curr v (hcross c hc curr List.mem_cons_self) habove
      · rwa [List.mem_singleton.mp hc]
    · intro c hc
      have hmem : c ∈ pre++curr::post :=
        List.mem_append_right _ (List.mem_cons_of_mem _ (List.mem_of_mem_head? hc))
      exact below_head v hv (hap c hmem) (hnext c hc)

end

def Follows (v w : Vma) : Prop :=
  Below v w ∧ (hi v = v.endAddr.toNat ∨ lo w ≤ v.endAddr.toNat+4096)

theorem follows_sorted (h : vmas.IsChain Follows) : vmas.Pairwise Below :=
  (h.imp (fun _ _ hvw => hvw.1)).pairwise

theorem insert_follows (pre post : List Vma) (v : Vma) (h : (pre++post).IsChain Follows)
    (hpre : ∀ c ∈ pre, Below c v) (hpost : ∀ c ∈ post, Below v c)
    (hv : post ≠ [] → hi v = v.endAddr.toNat)
    (hlast : post = [] → ∀ a ∈ pre.getLast?, hi a = a.endAddr.toNat ∨ lo v ≤ a.endAddr.toNat+4096) :
    (pre++v::post).IsChain Follows := by
  obtain ⟨hleft,hright,hjoin⟩ := List.isChain_append.mp h
  rw [List.isChain_append, List.isChain_cons]
  refine ⟨hleft,⟨?_,hright⟩,?_⟩
  · intro b hb
    refine ⟨hpost b (List.mem_of_mem_head? hb),Or.inl (hv ?_)⟩
    rintro rfl
    cases hb
  · intro a ha b hb
    obtain rfl : v = b := by simpa using hb
    refine ⟨hpre a (List.mem_of_mem_getLast? ha),?_⟩
    cases post with
    | nil => exact hlast rfl a ha
    | cons next post =>
      -- what was too near to `a` before is no farther now
      have hnext := hpost next List.mem_cons_self
      have hv' := lo_le_hi v
      apply (hjoin a ha next rfl).2.imp id
      unfold Below at hnext
      omega

def Upright (v : Vma) : Prop :=
  v.startAddr.toNat ≤ v.endAddr.toNat ∧ v.endAddr.toNat ≤ (lookupEnd v).toNat

theorem upright_range (v : Vma) (h : Upright v) :
    lo v = v.startAddr.toNat ∧ hi v = (lookupEnd v).toNat := by
  have hle := h.1.trans h.2
  exact ⟨min_eq_left hle,max_eq_right hle⟩

theorem upright_proper (v : Vma) (h : Upright v) : Proper v := by
  obtain ⟨hlo,hhi⟩ := upright_range v h
  unfold Proper
  rw [hlo, hhi]
  exact h

theorem behind_toNat (e len : Word) (h : e.toNat+4097+len.toNat < 2^64) :
    (e+1).toNat = e.toNat+1 ∧ (e+1+4096+len).toNat = e.toNat+4097+len.toNat := by
  have hone : (1 : Word).toNat = 1 := rfl
  have hpage : (4096 : Word).toNat = 4096 := rfl
  have hnext : (e+1).toNat = e.toNat+1 := by
    rw [BitVec.toNat_add, hone]
    omega
  refine ⟨hnext,?_⟩
  rw [BitVec.toNat_add, BitVec.toNat_add, hnext, hpage]
  omega

theorem firstFit_place {len : Word} {last : Vma} {rest : List Vma} (curr : Vma)
    (hchain : (curr::rest++[last]).IsChain Follows) (hup : ∀ v ∈ curr::rest, Upright v)
    (hroom : ∀ v ∈ curr::rest, v.endAddr.toNat+4097+len.toNat ≤ lo last) :
    ∃ pre a b post, curr::rest++[last] = pre++a::b::post ∧
      hi a < (doFirstFitFrom len (curr.endAddr+1) curr (rest++[last])).toNat ∧
      (doFirstFitFrom len (curr.endAddr+1) curr (rest++[last])).toNat+len.toNat+4096 ≤ lo b := by
  have hbound := (lo_le_start last).trans_lt last.startAddr.isLt
  induction rest generalizing curr with
  | nil =>
    have hcurr := hroom curr List.mem_cons_self
    obtain ⟨hnext,hsum⟩ := behind_toNat curr.endAddr len (by omega)
    have hfit : curr.endAddr ≤ curr.endAddr+1 ∧ curr.endAddr+1+4096+len ≤ last.startAddr := by
      constructor
      · show curr.endAddr.toNat ≤ (curr.endAddr+1).toNat
        omega
      · show (curr.endAddr+1+4096+len).toNat ≤ last.startAddr.toNat
        have := lo_le_start last
        omega
    have hresult : doFirstFitFrom len (curr.endAddr+1) curr ([]++[last]) = curr.endAddr+1 := by
      rw [List.nil_append, doFirstFitFrom, if_pos hfit]
    obtain ⟨hfollows,_⟩ := List.isChain_cons_cons.mp hchain
    rw [hresult, hnext]
    refine ⟨[],curr,last,[],rfl,?_,by omega⟩
    rcases hfollows.2 with he | hnear <;> omega
  | cons next rest ih =>
    obtain ⟨hfollows,htail⟩ := List.isChain_cons_cons.mp hchain
    have hcurr := hroom curr List.mem_cons_self
    obtain ⟨hnext,hsum⟩ := behind_toNat curr.endAddr len (by omega)
    have hlo := (upright_range next (hup next (by simp))).1
    rw [show (next::rest)++[last] = next::(rest++[last]) from rfl, doFirstFitFrom]
    split_ifs with hfit
    · have hle : (curr.endAddr+1+4096+len).toNat ≤ next.startAddr.toNat := hfit.2
      rw [hnext]
      refine ⟨[],curr,next,rest++[last],rfl,?_,by omega⟩
      rcases hfollows.2 with he | hnear <;> omega
    · obtain ⟨pre,a,b,post,he,hplace⟩ := ih next htail
        (fun v hv => hup v (List.mem_cons_of_mem _ hv))
        (fun v hv => hroom v (List.mem_cons_of_mem _ hv))
      exact ⟨curr::pre,a,b,post,congrArg (List.cons curr) he,hplace⟩

theorem added_last {vmas' : List Vma} (hs : vmas.Pairwise Below) (hv : Proper v)
    (hp : ∀ c ∈ vmas, Proper c) (hbelow : ∀ c ∈ vmas, Below c v)
    (h : addVma vmas v = .added vmas') : vmas' = vmas++[v] := by
  obtain ⟨pre,post,rfl,rfl,_,hpost⟩ := added_place v vmas vmas' hs hv hp
    (fun c hc => Or.inr (hbelow c hc)) h
  cases post with
  | nil => rw [List.append_nil]
  | cons c post =>
    have hcycle := below_trans v c v (hpost c List.mem_cons_self) (hbelow c (by simp))
    have hv' := lo_le_hi v
    unfold Below at hcycle
    omega

/-- What lies in a gap of an ordered list meets none of its VMAs. -/
theorem outside_gap (pre post : List Vma) (hs : (pre++post).Pairwise Below) (x y : ℕ)
    (hpre : ∀ a ∈ pre.getLast?, hi a < x) (hpost : ∀ b ∈ post.head?, y < lo b) :
    ∀ v ∈ pre++post, y < lo v ∨ hi v < x := by
  obtain ⟨hleft,hright,_⟩ := List.pairwise_append.mp hs
  intro v hv
  rcases List.mem_append.mp hv with hv | hv
  · right
    obtain ⟨init,a,rfl⟩ : ∃ init a, pre = init++[a] :=
      ⟨_,_,(List.dropLast_append_getLast (List.ne_nil_of_mem hv)).symm⟩
    have ha := hpre a (by simp)
    rcases List.mem_append.mp hv with hv | hv
    · have hva := (List.pairwise_append.mp hleft).2.2 v hv a (by simp)
      have hlohi := lo_le_hi a
      unfold Below at hva
      omega
    · rwa [List.mem_singleton.mp hv]
  · left
    cases post with
    | nil => cases hv
    | cons b post =>
      have hb := hpost b rfl
      rcases List.mem_cons.mp hv with rfl | hv
      · exact hb
      · have hbv := (List.pairwise_cons.mp hright).1 v hv
        have hlohi := lo_le_hi b
        unfold Below at hbv
        omega

end PreemptiveOS.VmaRanges
