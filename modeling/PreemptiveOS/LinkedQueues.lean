import Mathlib.Data.List.Nodup
import Mathlib.Logic.Function.Basic

/-!
# Singly linked queues through one link field

Several queues of nodes that are threaded through a single link. Each queue
has a head, and a list says which nodes it consists of and in which order.
As long as no node is in two queues, pushing in front, appending behind the
last node and unlinking one of the first two nodes change one list only.
-/

set_option autoImplicit false

namespace PreemptiveOS.LinkedQueues

variable {P Q : Type*}

def Chain (next : P → Option P) : Option P → List P → Prop
  | h, [] => h = none
  | h, p::l => h = some p ∧ Chain next (next p) l

theorem chain_head (next : P → Option P) (h : Option P) (l : List P) (hc : Chain next h l) :
    h = l.head? := by
  cases l with
  | nil => exact hc
  | cons p l => exact hc.1

theorem chain_unique (next : P → Option P) (h : Option P) (l l' : List P) (hc : Chain next h l)
    (hc' : Chain next h l') : l = l' := by
  induction l generalizing h l' with
  | nil =>
    cases l' with
    | nil => rfl
    | cons p l' => exact absurd (hc.symm.trans hc'.1) (by simp)
  | cons p l ih =>
    cases l' with
    | nil => exact absurd (hc'.symm.trans hc.1) (by simp)
    | cons p' l' =>
      obtain rfl := Option.some.inj (hc.1.symm.trans hc'.1)
      rw [ih _ _ hc.2 hc'.2]

theorem chain_congr (next next' : P → Option P) (h : Option P) (l : List P)
    (he : ∀ p ∈ l, next' p = next p) (hc : Chain next h l) : Chain next' h l := by
  induction l generalizing h with
  | nil => exact hc
  | cons p l ih =>
    refine ⟨hc.1,?_⟩
    rw [he p (by simp)]
    exact ih _ (fun q hq => he q (by simp [hq])) hc.2

variable {l : List P} {p : P} {next : P → Option P}

theorem chain_next_mem (h : Option P) (hc : Chain next h l) {q : P} (hp : p ∈ l)
    (hq : next p = some q) : q ∈ l := by
  induction l generalizing h with
  | nil => simp at hp
  | cons a l ih =>
    rcases List.mem_cons.mp hp with rfl | hp
    · have hh := chain_head next _ l hc.2
      rw [hq] at hh
      exact List.mem_cons_of_mem _ (List.mem_of_mem_head? hh.symm)
    · exact List.mem_cons_of_mem _ (ih _ hc.2 hp)

def lastFrom (next : P → Option P) : ℕ → P → Option P
  | 0, _ => none
  | n+1, p =>
    match next p with
    | none => some p
    | some q => lastFrom next n q

variable {last : P}

theorem lastFrom_chain (p : P) (n : ℕ) (hc : Chain next (some p) (l++[last])) (hn : l.length < n) :
    lastFrom next n p = some last := by
  induction l generalizing p n with
  | nil =>
    obtain ⟨hp,hlast⟩ := hc
    obtain rfl := Option.some.inj hp
    obtain ⟨n,rfl⟩ := Nat.exists_eq_succ_of_ne_zero (Nat.ne_zero_of_lt hn)
    have hnone : next p = none := hlast
    simp [lastFrom, hnone]
  | cons a l ih =>
    obtain ⟨hp,hrest⟩ := hc
    obtain rfl := Option.some.inj hp
    change Chain next (next p) (l++[last]) at hrest
    obtain ⟨n,rfl⟩ := Nat.exists_eq_succ_of_ne_zero (Nat.ne_zero_of_lt hn)
    have hhead := chain_head next _ _ hrest
    cases hl : l++[last] with
    | nil => simp at hl
    | cons b l' =>
      rw [hl] at hhead
      have hb : next p = some b := hhead
      simp only [lastFrom, hb]
      apply ih b n _ (by simpa using hn)
      rw [hb] at hrest
      exact hrest

section
variable [DecidableEq P]

theorem chain_outside (next : P → Option P) (h : Option P) (l : List P) (p : P) (v : Option P)
    (hp : p ∉ l) (hc : Chain next h l) : Chain (Function.update next p v) h l := by
  apply chain_congr next _ h l _ hc
  intro q hq
  have hne : q ≠ p := fun he => hp (he ▸ hq)
  exact Function.update_of_ne hne _ _

theorem chain_append (next : P → Option P) (h : Option P) (l : List P) (last p : P)
    (hn : (l++[last]).Nodup) (hp : p ∉ l++[last]) (hc : Chain next h (l++[last])) :
    Chain (Function.update (Function.update next last (some p)) p none) h (l++[last]++[p]) := by
  induction l generalizing h with
  | nil =>
    have hne : last ≠ p := fun he => hp (by simp [he])
    refine ⟨hc.1,?_,?_⟩
    · rw [Function.update_of_ne hne, Function.update_self]
    · rw [Chain, Function.update_self]
  | cons a l ih =>
    rw [List.cons_append, List.nodup_cons] at hn
    have hap : a ≠ p := fun he => hp (by simp [he])
    have hal : a ≠ last := fun he => hn.1 (by simp [he])
    refine ⟨hc.1,?_⟩
    rw [Function.update_of_ne hap, Function.update_of_ne hal]
    exact ih _ hn.2 (fun hm => hp (List.mem_cons_of_mem _ hm)) hc.2

theorem chain_second (next : P → Option P) (h : Option P) (a b : P) (l : List P)
    (hn : (a::b::l).Nodup) (hc : Chain next h (a::b::l)) :
    Chain (Function.update next a (next b)) h (a::l) := by
  rw [List.nodup_cons] at hn
  have hal : a ∉ l := fun hm => hn.1 (List.mem_cons_of_mem _ hm)
  refine ⟨hc.1,?_⟩
  rw [Function.update_self]
  exact chain_outside next _ l a _ hal hc.2.2

end

structure Linked (next : P → Option P) (heads : Q → Option P) (lists : Q → List P) : Prop where
  chain : ∀ q, Chain next (heads q) (lists q)
  nodup : ∀ q, (lists q).Nodup
  disjoint : ∀ q q' p, p ∈ lists q → p ∈ lists q' → q = q'

def Member (lists : Q → List P) (p : P) : Prop := ∃ q, p ∈ lists q

variable {q : Q}

section
variable {next : P → Option P} {heads : Q → Option P} {lists : Q → List P}
  (h : Linked next heads lists)
include h

theorem linked_congr (next' : P → Option P)
    (hn : ∀ q, ∀ p ∈ lists q, next' p = next p) : Linked next' heads lists := by
  constructor
  case chain => exact fun q => chain_congr next next' _ _ (hn q) (h.chain q)
  case nodup => exact h.nodup
  case disjoint => exact h.disjoint

theorem linked_others (hsub : ∀ p ∈ l, p ∈ lists q) : ∀ p ∈ l, ∀ q', q' ≠ q → p ∉ lists q' := by
  intro p hp q' hq hp'
  exact hq (h.disjoint q' q p hp' (hsub p hp))

variable [DecidableEq Q]

theorem linked_replace (next' : P → Option P) (heads' : Q → Option P) (q : Q) (l : List P)
    (hheads : ∀ q', q' ≠ q → heads' q' = heads q')
    (hnext : ∀ q' p, q' ≠ q → p ∈ lists q' → next' p = next p)
    (hchain : Chain next' (heads' q) l) (hnodup : l.Nodup)
    (hfresh : ∀ p ∈ l, ∀ q', q' ≠ q → p ∉ lists q') :
    Linked next' heads' (Function.update lists q l) := by
  constructor
  case chain =>
    intro q'
    by_cases hq : q' = q
    · subst hq
      rwa [Function.update_self]
    · rw [Function.update_of_ne hq, hheads q' hq]
      exact chain_congr next next' _ _ (fun p hp => hnext q' p hq hp) (h.chain q')
  case nodup =>
    intro q'
    by_cases hq : q' = q
    · subst hq
      rwa [Function.update_self]
    · rw [Function.update_of_ne hq]
      exact h.nodup q'
  case disjoint =>
    intro q₁ q₂ p h₁ h₂
    by_cases hq₁ : q₁ = q <;> by_cases hq₂ : q₂ = q
    · rw [hq₁, hq₂]
    · subst hq₁
      rw [Function.update_self] at h₁
      rw [Function.update_of_ne hq₂] at h₂
      exact absurd h₂ (hfresh p h₁ q₂ hq₂)
    · subst hq₂
      rw [Function.update_self] at h₂
      rw [Function.update_of_ne hq₁] at h₁
      exact absurd h₁ (hfresh p h₂ q₁ hq₁)
    · rw [Function.update_of_ne hq₁] at h₁
      rw [Function.update_of_ne hq₂] at h₂
      exact h.disjoint q₁ q₂ p h₁ h₂

theorem linked_pop (hl : lists q = p::l) :
    Linked next (Function.update heads q (next p)) (Function.update lists q l) := by
  have hc := h.chain q
  have hn := h.nodup q
  rw [hl] at hc hn
  apply linked_replace h next _ q l
  · exact fun q' hq => Function.update_of_ne hq _ _
  · exact fun q' p' _ _ => rfl
  · rw [Function.update_self]
    exact hc.2
  · exact (List.nodup_cons.mp hn).2
  · exact linked_others h (fun p' hp => by simp [hl, hp])

variable [DecidableEq P]

theorem linked_front (q : Q) (hp : ¬ Member lists p) :
    Linked (Function.update next p (heads q)) (Function.update heads q (some p))
      (Function.update lists q (p::lists q)) := by
  have hout : ∀ q', p ∉ lists q' := fun q' hm => hp ⟨q',hm⟩
  apply linked_replace h _ _ q (p::lists q)
  · exact fun q' hq => Function.update_of_ne hq _ _
  · intro q' p' _ hp'
    have hne : p' ≠ p := fun he => hout q' (he ▸ hp')
    exact Function.update_of_ne hne _ _
  · rw [Function.update_self]
    refine ⟨rfl,?_⟩
    rw [Function.update_self]
    exact chain_outside next _ _ p _ (hout q) (h.chain q)
  · exact List.nodup_cons.mpr ⟨hout q,h.nodup q⟩
  · intro p' hp' q' hq
    rcases List.mem_cons.mp hp' with rfl | hp'
    · exact hout q'
    · exact linked_others h (fun _ hm => hm) p' hp' q' hq

theorem linked_back (hl : lists q = l++[last]) (hp : ¬ Member lists p) :
    Linked (Function.update (Function.update next last (some p)) p none) heads
      (Function.update lists q (lists q++[p])) := by
  have hout : ∀ q', p ∉ lists q' := fun q' hm => hp ⟨q',hm⟩
  have hlast : last ∈ lists q := by simp [hl]
  apply linked_replace h _ _ q (lists q++[p])
  · exact fun q' _ => rfl
  · intro q' p' hq hp'
    have hpp : p' ≠ p := fun he => hout q' (he ▸ hp')
    have hpl : p' ≠ last := fun he => hq (h.disjoint q' q last (he ▸ hp') hlast)
    rw [Function.update_of_ne hpp, Function.update_of_ne hpl]
  · have hc := h.chain q
    have hn := h.nodup q
    have ho := hout q
    rw [hl] at hc hn ho ⊢
    exact chain_append next _ l last p hn ho hc
  · rw [List.nodup_append]
    refine ⟨h.nodup q,List.nodup_singleton p,?_⟩
    intro a ha b hb
    rw [List.mem_singleton.mp hb]
    exact fun he => hout q (he ▸ ha)
  · intro p' hp' q' hq
    rcases List.mem_append.mp hp' with hp' | hp'
    · exact linked_others h (fun _ hm => hm) p' hp' q' hq
    · rw [List.mem_singleton.mp hp']
      exact hout q'

theorem linked_second {a b : P} (hl : lists q = a::b::l) :
    Linked (Function.update next a (next b)) heads (Function.update lists q (a::l)) := by
  have hc := h.chain q
  have hn := h.nodup q
  rw [hl] at hc hn
  apply linked_replace h _ _ q (a::l)
  · exact fun q' _ => rfl
  · intro q' p' hq hp'
    have hne : p' ≠ a := fun he => hq (h.disjoint q' q a (he ▸ hp') (by simp [hl]))
    exact Function.update_of_ne hne _ _
  · exact chain_second next _ a b l hn hc
  · exact hn.sublist ((List.sublist_cons_self b l).cons_cons a)
  · apply linked_others h
    intro p' hp'
    rw [hl]
    rcases List.mem_cons.mp hp' with rfl | hp'
    · simp
    · simp [hp']

end

end PreemptiveOS.LinkedQueues
