import PreemptiveOS.LinkedQueues

/-!
# Doubly linked lists

Nodes with a link to the next and a link to the previous one. A segment is a
run of nodes between an entry and an exit; the first node points back to what
stands before the segment and the last one on to its exit. Segments are put
together and taken apart at any node, so that a change of one list is a change
of the exit of one segment and of what stands before the next.
-/

set_option autoImplicit false

namespace PreemptiveOS.DoubleLinks
open LinkedQueues

variable {P : Type*}

def Segment (next prev : P → Option P) : Option P → Option P → List P → Option P → Option P → Prop
  | before, entry, [], last, exit => entry = exit ∧ last = before
  | before, entry, p::l, last, exit =>
    entry = some p ∧ prev p = before ∧ Segment next prev (some p) (next p) l last exit

def Doubly (next prev : P → Option P) (head : Option P) (l : List P) : Prop :=
  ∃ last, Segment next prev none head l last none

variable {l l₁ l₂ : List P} {before before' exit head joint last mid : Option P} {v : P}
  {next' prev' : P → Option P}

section
variable {next prev : P → Option P}

theorem segment_append (before entry : Option P) (l l' : List P) :
    Segment next prev before entry (l++l') last exit ↔
      ∃ mid joint, Segment next prev before entry l mid joint ∧
        Segment next prev mid joint l' last exit := by
  induction l generalizing before entry with
  | nil =>
    constructor
    · exact fun h => ⟨before,entry,⟨rfl,rfl⟩,h⟩
    · rintro ⟨_,_,⟨rfl,rfl⟩,h⟩
      exact h
  | cons p l ih =>
    constructor
    · rintro ⟨he,hp,h⟩
      obtain ⟨mid,joint,h₁,h₂⟩ := (ih _ _).mp h
      exact ⟨mid,joint,⟨he,hp,h₁⟩,h₂⟩
    · rintro ⟨mid,joint,⟨he,hp,h₁⟩,h₂⟩
      exact ⟨he,hp,(ih _ _).mpr ⟨mid,joint,h₁,h₂⟩⟩

theorem segment_congr (before entry : Option P) (hn : ∀ p ∈ l, next' p = next p)
    (hp : ∀ p ∈ l, prev' p = prev p) (h : Segment next prev before entry l last exit) :
    Segment next' prev' before entry l last exit := by
  induction l generalizing before entry with
  | nil => exact h
  | cons p l ih =>
    obtain ⟨he,hb,h⟩ := h
    refine ⟨he,(hp p (by simp)).trans hb,?_⟩
    rw [hn p (by simp)]
    exact ih _ _ (fun q hq => hn q (by simp [hq])) (fun q hq => hp q (by simp [hq])) h

theorem segment_chain (before entry : Option P) (h : Segment next prev before entry l last none) :
    Chain next entry l := by
  induction l generalizing before entry with
  | nil => exact h.1
  | cons p l ih => exact ⟨h.1,ih _ _ h.2.2⟩

theorem doubly_chain (head : Option P) (l : List P) (h : Doubly next prev head l) :
    Chain next head l := by
  obtain ⟨last,h⟩ := h
  exact segment_chain _ _ h

theorem doubly_congr (hn : ∀ p ∈ l, next' p = next p) (hp : ∀ p ∈ l, prev' p = prev p)
    (h : Doubly next prev head l) : Doubly next' prev' head l := by
  obtain ⟨last,h⟩ := h
  exact ⟨last,segment_congr _ _ hn hp h⟩

theorem chain_suffix (entry : Option P) (l l' : List P) (p : P)
    (h : Chain next entry (l++p::l')) : Chain next (some p) (p::l') := by
  induction l generalizing entry with
  | nil => exact ⟨rfl,h.2⟩
  | cons a l ih => exact ih _ h.2

theorem chain_nodup (head : Option P) (h : Chain next head l) : l.Nodup := by
  induction l generalizing head with
  | nil => exact List.nodup_nil
  | cons p l ih =>
    refine List.nodup_cons.mpr ⟨?_,ih _ h.2⟩
    intro hp
    obtain ⟨l₁,l₂,rfl⟩ := List.append_of_mem hp
    -- the links from the second place of the node lead through the whole list again
    have hlong : Chain next (some p) (p::(l₁++p::l₂)) := ⟨rfl,h.2⟩
    have hlen := congrArg List.length
      (chain_unique next _ _ _ hlong (chain_suffix _ l₁ l₂ p h.2))
    simp only [List.length_cons, List.length_append] at hlen
    omega

theorem doubly_nodup (h : Doubly next prev head l) : l.Nodup :=
  chain_nodup head (doubly_chain head l h)

theorem doubly_head (h : Doubly next prev head l) :
    head = l.head? := chain_head next head l (doubly_chain head l h)

theorem doubly_head_prev {p : P} (h : Doubly next prev head (p::l)) : prev p = none := by
  obtain ⟨_,_,hp,_⟩ := h
  exact hp

theorem doubly_joint (head : Option P) (l₁ l₂ : List P) (h : Doubly next prev head (l₁++l₂)) :
    l₁.getLast?.elim head next = l₂.head? := by
  have hc := doubly_chain head _ h
  rcases List.eq_nil_or_concat l₁ with rfl | ⟨l,p,rfl⟩
  · exact chain_head next head l₂ hc
  · simp only [List.concat_eq_append, List.append_assoc, List.getLast?_concat] at hc ⊢
    exact chain_head next _ l₂ (chain_suffix head l l₂ p hc).2

theorem segment_last (head mid joint : Option P) (l : List P)
    (h : Segment next prev none head l mid joint) : mid = l.getLast? := by
  rcases List.eq_nil_or_concat l with rfl | ⟨l,p,rfl⟩
  · exact h.2
  · simp only [List.concat_eq_append, List.getLast?_concat] at h ⊢
    obtain ⟨_,_,_,_,_,_,hlast⟩ := (segment_append _ _ l [p]).mp h
    exact hlast

theorem doubly_back (head : Option P) (l₁ l₂ : List P) (v : P)
    (h : Doubly next prev head (l₁++v::l₂)) : prev v = l₁.getLast? := by
  obtain ⟨_,h⟩ := h
  obtain ⟨mid,joint,h₁,_,hback,_⟩ := (segment_append _ _ l₁ (v::l₂)).mp h
  rw [hback, segment_last head mid joint l₁ h₁]

variable [DecidableEq P] {next' prev' : P → Option P}

theorem segment_retail (h : Segment next prev none head l mid joint) (hd : l.Nodup)
    (hn : ∀ p ∈ l, next' p = if l.getLast? = some p then exit else next p)
    (hp : ∀ p ∈ l, prev' p = prev p) :
    Segment next' prev' none (if l = [] then exit else head) l l.getLast? exit := by
  rcases List.eq_nil_or_concat l with rfl | ⟨l,p,rfl⟩
  · exact ⟨rfl,rfl⟩
  · simp only [List.concat_eq_append, List.getLast?_concat] at h hd hn hp ⊢
    rw [if_neg (by simp)]
    obtain ⟨mid',joint',h₁,he,hb,_⟩ := (segment_append _ _ l [p]).mp h
    have hout : p ∉ l := fun hm => (List.nodup_append.mp hd).2.2 p hm p (by simp) rfl
    rw [segment_append]
    refine ⟨mid',joint',?_,he,?_,?_,rfl⟩
    · apply segment_congr _ _ _ _ h₁
      · intro q hq
        have hne : ¬ some p = some q := fun hpq => hout (Option.some.inj hpq ▸ hq)
        rw [hn q (by simp [hq]), if_neg hne]
      · exact fun q hq => hp q (by simp [hq])
    · rw [hp p (by simp)]
      exact hb
    · rw [hn p (by simp), if_pos rfl]

theorem segment_rehead (h : Segment next prev before joint l last none) (hd : l.Nodup)
    (hn : ∀ p ∈ l, next' p = next p)
    (hp : ∀ p ∈ l, prev' p = if l.head? = some p then before' else prev p) :
    ∃ last', Segment next' prev' before' l.head? l last' none := by
  cases l with
  | nil => exact ⟨before',rfl,rfl⟩
  | cons q l =>
    obtain ⟨_,_,h⟩ := h
    rw [List.nodup_cons] at hd
    refine ⟨last,rfl,?_,?_⟩
    · rw [hp q (by simp), List.head?_cons, if_pos rfl]
    · rw [hn q (by simp)]
      apply segment_congr _ _ _ _ h
      · exact fun p hpl => hn p (by simp [hpl])
      · intro p hpl
        have hne : ¬ some q = some p := fun hqp => hd.1 (Option.some.inj hqp ▸ hpl)
        rw [hp p (by simp [hpl]), List.head?_cons, if_neg hne]

theorem parts_relinked {joint' : Option P} (h₁ : Segment next prev none head l₁ mid joint)
    (h₂ : Segment next prev before joint' l₂ last none) (hd : (l₁++l₂).Nodup)
    (hn : ∀ p ∈ l₁++l₂, next' p = if l₁.getLast? = some p then exit else next p)
    (hp : ∀ p ∈ l₁++l₂, prev' p = if l₂.head? = some p then before' else prev p) :
    Segment next' prev' none (if l₁ = [] then exit else head) l₁ l₁.getLast? exit ∧
      ∃ last', Segment next' prev' before' l₂.head? l₂ last' none := by
  obtain ⟨hd₁,hd₂,hapart⟩ := List.nodup_append.mp hd
  have hp₁ : ∀ p ∈ l₁, prev' p = prev p := by
    intro p hm
    rw [hp p (by simp [hm]), if_neg]
    exact fun he => hapart p hm p (List.mem_of_mem_head? he) rfl
  have hn₂ : ∀ p ∈ l₂, next' p = next p := by
    intro p hm
    rw [hn p (by simp [hm]), if_neg]
    exact fun he => hapart p (List.mem_of_getLast? he) p hm rfl
  exact ⟨segment_retail h₁ hd₁ (fun p hm => hn p (by simp [hm])) hp₁,
    segment_rehead h₂ hd₂ hn₂ (fun p hm => hp p (by simp [hm]))⟩

theorem doubly_insert (h : Doubly next prev head (l₁++l₂))
    (hn : ∀ p ∈ l₁++l₂, next' p = if l₁.getLast? = some p then some v else next p)
    (hp : ∀ p ∈ l₁++l₂, prev' p = if l₂.head? = some p then some v else prev p)
    (hnv : next' v = l₂.head?) (hpv : prev' v = l₁.getLast?) :
    Doubly next' prev' (if l₁ = [] then some v else head) (l₁++v::l₂) := by
  have hd := doubly_nodup h
  obtain ⟨last,h⟩ := h
  obtain ⟨mid,joint,h₁,h₂⟩ := (segment_append _ _ l₁ l₂).mp h
  obtain ⟨hleft,last',hright⟩ := parts_relinked h₁ h₂ hd hn hp
  refine ⟨last',(segment_append _ _ l₁ (v::l₂)).mpr ⟨_,_,hleft,rfl,hpv,?_⟩⟩
  rw [hnv]
  exact hright

theorem doubly_remove (h : Doubly next prev head (l₁++v::l₂))
    (hn : ∀ p ∈ l₁++l₂, next' p = if l₁.getLast? = some p then l₂.head? else next p)
    (hp : ∀ p ∈ l₁++l₂, prev' p = if l₂.head? = some p then l₁.getLast? else prev p) :
    Doubly next' prev' (if l₁ = [] then l₂.head? else head) (l₁++l₂) := by
  have hd : (l₁++l₂).Nodup :=
    (doubly_nodup h).sublist ((List.sublist_cons_self v l₂).append_left l₁)
  obtain ⟨last,h⟩ := h
  obtain ⟨mid,joint,h₁,_,_,h₂⟩ := (segment_append _ _ l₁ (v::l₂)).mp h
  obtain ⟨hleft,last',hright⟩ := parts_relinked h₁ h₂ hd hn hp
  exact ⟨last',(segment_append _ _ l₁ l₂).mpr ⟨_,_,hleft,hright⟩⟩

end

end PreemptiveOS.DoubleLinks
