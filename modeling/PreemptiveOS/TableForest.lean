import Mathlib.Data.List.Basic
import Mathlib.Tactic

/-!
# Forests of lookup tables

A store gives every table an array of entries; an entry may name a child
table. Descending from a root along a list of indices reaches a table or
fails. A domain says which roots and paths are of interest; a forest is
separate on a domain when no table is reached in two ways inside it. The
rules say what descending sees after the updates a table walker makes:
tables changed that nothing reaches, an entry rewritten that keeps its child
or whose child is of no interest, and a fresh empty table linked below a
reached one.
-/

set_option autoImplicit false

namespace PreemptiveOS.TableForest

section
variable {T I E : Type*} (child : E → Option T)

def descend (σ : T → I → E) : T → List I → Option T
  | t, [] => some t
  | t, i::is => (child (σ t i)).bind (fun u => descend σ u is)

def PrefixClosed (dom : T → List I → Prop) : Prop := ∀ r p q, dom r (p++q) → dom r p

def Separate (σ : T → I → E) (dom : T → List I → Prop) : Prop :=
  ∀ r p r' p' t, dom r p → dom r' p' → descend child σ r p = some t →
    descend child σ r' p' = some t → r = r' ∧ p = p'

def entryAt (σ : T → I → E) (r : T) (p : List I) (j : I) : Option E :=
  (descend child σ r p).map (fun u => σ u j)

def Reached (σ : T → I → E) (dom : T → List I → Prop) (t : T) : Prop :=
  ∃ r p, dom r p ∧ descend child σ r p = some t

theorem closed_above {dom : T → List I → Prop} (hc : PrefixClosed dom) {r : T} {p q : List I} {i : I}
    (hpre : q++[i] <+: p) (hd : dom r p) : dom r q := by
  obtain ⟨w,rfl⟩ := hpre
  rw [List.append_assoc] at hd
  exact hc r q _ hd

theorem descend_append (σ : T → I → E) (t : T) (p q : List I) :
    descend child σ t (p++q) = (descend child σ t p).bind (fun u => descend child σ u q) := by
  induction p generalizing t with
  | nil => rfl
  | cons i p ih =>
    simp only [List.cons_append, descend]
    cases child (σ t i) with
    | none => rfl
    | some u => exact ih u

theorem descend_snoc (σ : T → I → E) (t : T) (p : List I) (i : I) :
    descend child σ t (p++[i]) = (descend child σ t p).bind (fun u => child (σ u i)) := by
  rw [descend_append]
  congr 1
  funext u
  simp [descend]

theorem descend_entry (σ : T → I → E) (t : T) (p : List I) (i : I) :
    descend child σ t (p++[i]) = (entryAt child σ t p i).bind child := by
  rw [descend_snoc, entryAt]
  cases descend child σ t p <;> rfl

theorem descend_entries {σ σ' : T → I → E} {r : T} {p : List I}
    (h : ∀ q i, p = q++[i] → entryAt child σ' r q i = entryAt child σ r q i) :
    descend child σ' r p = descend child σ r p := by
  induction p using List.reverseRecOn with
  | nil => rfl
  | append_singleton q i _ => rw [descend_entry, descend_entry, h q i rfl]

theorem descend_same {σ σ' : T → I → E} {dom : T → List I → Prop} (hc : PrefixClosed dom)
    (h : ∀ r p u i, dom r (p++[i]) → descend child σ r p = some u →
      child (σ' u i) = child (σ u i)) {r : T} {p : List I} (hd : dom r p) :
    descend child σ' r p = descend child σ r p := by
  induction p using List.reverseRecOn with
  | nil => rfl
  | append_singleton p i ih =>
    rw [descend_snoc, descend_snoc, ih (hc r p [i] hd)]
    cases hu : descend child σ r p with
    | none => rfl
    | some u => exact h r p u i hd hu

theorem separate_of_same {σ σ' : T → I → E} {dom : T → List I → Prop}
    (h : ∀ r p, dom r p → descend child σ' r p = descend child σ r p)
    (hs : Separate child σ dom) : Separate child σ' dom := by
  intro r p r' p' t hd hd' ht ht'
  rw [h r p hd] at ht
  rw [h r' p' hd'] at ht'
  exact hs r p r' p' t hd hd' ht ht'

theorem reached_of_same (σ σ' : T → I → E) (dom : T → List I → Prop)
    (h : ∀ r p, dom r p → descend child σ' r p = descend child σ r p) (t : T) :
    Reached child σ' dom t ↔ Reached child σ dom t := by
  constructor
  · rintro ⟨r,p,hd,ht⟩
    exact ⟨r,p,hd,h r p hd ▸ ht⟩
  · rintro ⟨r,p,hd,ht⟩
    exact ⟨r,p,hd,(h r p hd).trans ht⟩

theorem descend_agree (σ σ' : T → I → E) (dom : T → List I → Prop) (hc : PrefixClosed dom)
    (h : ∀ u, Reached child σ dom u → ∀ j, σ' u j = σ u j) (r : T) (p : List I) (hd : dom r p) :
    descend child σ' r p = descend child σ r p := by
  apply descend_same child hc _ hd
  intro r₁ p₁ u j hj hu
  rw [h u ⟨r₁,p₁,hc r₁ p₁ [j] hj,hu⟩ j]

theorem entryAt_agree (σ σ' : T → I → E) (dom : T → List I → Prop) (hc : PrefixClosed dom)
    (h : ∀ u, Reached child σ dom u → ∀ j, σ' u j = σ u j) (r : T) (p : List I) (hd : dom r p)
    (j : I) : entryAt child σ' r p j = entryAt child σ r p j := by
  rw [entryAt, entryAt, descend_agree child σ σ' dom hc h r p hd]
  cases hu : descend child σ r p with
  | none => rfl
  | some u => simp [h u ⟨r,p,hd,hu⟩ j]

section
variable (σ : T → I → E) (dom dom' : T → List I → Prop) (n : T)
  (hdom : ∀ r p, dom' r p → dom r p ∨ r = n)
  (hbare : ∀ p t, dom' n p → descend child σ n p = some t → p = [])
include hdom hbare

theorem separate_root (hn : ¬ Reached child σ dom n) (hs : Separate child σ dom) :
    Separate child σ dom' := by
  have hroot : ∀ r p t, dom' r p → descend child σ r p = some t → t = n → r = n ∧ p = [] := by
    rintro r p t hd ht rfl
    rcases hdom r p hd with hold | rfl
    · exact absurd ⟨r,p,hold,ht⟩ hn
    · exact ⟨rfl,hbare p r hd ht⟩
  have hnew : ∀ p t, dom' n p → descend child σ n p = some t → t = n := by
    intro p t hd ht
    rw [hbare p t hd ht] at ht
    exact (Option.some.inj ht).symm
  intro r p r' p' t hd hd' ht ht'
  by_cases htn : t = n
  · obtain ⟨rfl,rfl⟩ := hroot r p t hd ht htn
    obtain ⟨rfl,rfl⟩ := hroot r' p' t hd' ht' htn
    exact ⟨rfl,rfl⟩
  · have hold : ∀ r p, dom' r p → descend child σ r p = some t → dom r p := by
      intro r p hd ht
      rcases hdom r p hd with hold | rfl
      · exact hold
      · exact absurd (hnew p t hd ht) htn
    exact hs r p r' p' t (hold r p hd ht) (hold r' p' hd' ht') ht ht'

theorem reached_root {u : T} (hu : Reached child σ dom' u) : u = n ∨ Reached child σ dom u := by
  obtain ⟨r,p,hd,ht⟩ := hu
  rcases hdom r p hd with hold | rfl
  · exact Or.inr ⟨r,p,hold,ht⟩
  · rw [hbare p u hd ht] at ht
    exact Or.inl (Option.some.inj ht).symm

end

variable [DecidableEq T] [DecidableEq I]

def put (σ : T → I → E) (t : T) (i : I) (e : E) : T → I → E :=
  fun u j => if u = t ∧ j = i then e else σ u j

theorem put_same (σ : T → I → E) (t : T) (i : I) (e : E) : put σ t i e t i = e := by
  simp [put]

theorem put_other (σ : T → I → E) {t u : T} {i j : I} (e : E) (h : u ≠ t ∨ j ≠ i) :
    put σ t i e u j = σ u j := by
  unfold put
  rw [if_neg]
  rintro ⟨rfl,rfl⟩
  simp at h

section
variable (σ : T → I → E) (dom : T → List I → Prop) (hc : PrefixClosed dom)
  (hs : Separate child σ dom) (r : T) (q : List I) (t : T) (i : I) (e : E) (hq : dom r q)
  (ht : descend child σ r q = some t)
include hc hs hq ht

/-- Rewriting one entry of a reached table, when no path of the domain goes
on through that entry or when the entry keeps its child. -/
theorem descend_rewrite (hkeep : ¬ dom r (q++[i]) ∨ child e = child (σ t i)) (r' : T)
    (p' : List I) (hd' : dom r' p') :
    descend child (put σ t i e) r' p' = descend child σ r' p' := by
  apply descend_same child hc _ hd'
  intro r₁ p₁ u j hj hu
  by_cases hut : u = t ∧ j = i
  · obtain ⟨rfl,rfl⟩ := hut
    obtain ⟨rfl,rfl⟩ := hs r₁ p₁ r q u (hc r₁ p₁ [j] hj) hq hu ht
    rcases hkeep with hk | hk
    · exact absurd hj hk
    · rw [put_same, hk]
  · rw [put, if_neg hut]

omit hc in
theorem entryAt_put {r' : T} {p' : List I} (hd' : dom r' p') {j : I}
    (hj : ¬ (r' = r ∧ p' = q ∧ j = i)) :
    (descend child σ r' p').map (fun u => put σ t i e u j) = entryAt child σ r' p' j := by
  rw [entryAt]
  cases hu : descend child σ r' p' with
  | none => rfl
  | some u =>
    have hne : ¬ (u = t ∧ j = i) := by
      rintro ⟨rfl,rfl⟩
      obtain ⟨rfl,rfl⟩ := hs r' p' r q u hd' hq hu ht
      exact hj ⟨rfl,rfl,rfl⟩
    simp [put, hne]

theorem entryAt_rewrite (hkeep : ¬ dom r (q++[i]) ∨ child e = child (σ t i)) (r' : T)
    (p' : List I) (hd' : dom r' p') (j : I) :
    entryAt child (put σ t i e) r' p' j =
      if r' = r ∧ p' = q ∧ j = i then some e else entryAt child σ r' p' j := by
  rw [entryAt, descend_rewrite child σ dom hc hs r q t i e hq ht hkeep r' p' hd']
  by_cases h : r' = r ∧ p' = q ∧ j = i
  · obtain ⟨rfl,rfl,rfl⟩ := h
    simp [ht, put_same]
  · rw [if_neg h, entryAt_put child σ dom hs r q t i e hq ht hd' h]

end

section
variable (σ : T → I → E) (dom : T → List I → Prop) (hc : PrefixClosed dom)
  (hs : Separate child σ dom) (r : T) (q : List I) (t n : T) (i : I) (e : E)
  (hq : dom r (q++[i])) (ht : descend child σ r q = some t) (hnone : child (σ t i) = none)
  (he : child e = some n) (hn : ¬ Reached child σ dom n) (hempty : ∀ j, child (σ n j) = none)
include hc hs hq ht hnone he hn hempty

/-- Linking a fresh empty table: exactly one new path appears. -/
theorem descend_link (r' : T) (p' : List I) (hd' : dom r' p') :
    descend child (put σ t i e) r' p' =
      if r' = r ∧ p' = q++[i] then some n else descend child σ r' p' := by
  have hdq : dom r q := hc r q [i] hq
  have htn : n ≠ t := fun h => hn ⟨r,q,hdq,h ▸ ht⟩
  induction p' using List.reverseRecOn with
  | nil =>
    rw [if_neg (by simp)]
    rfl
  | append_singleton p j ih =>
    have hp : dom r' p := hc r' p [j] hd'
    rw [descend_snoc, ih hp]
    by_cases hpq : r' = r ∧ p = q++[i]
    · -- below the new table there is nothing, before or after
      have hold : descend child σ r' (p++[j]) = none := by
        rw [descend_snoc, hpq.1, hpq.2, descend_snoc, ht]
        simp [hnone]
      rw [if_pos hpq, hold, if_neg]
      · simp [put_other σ e (Or.inl htn), hempty]
      · rintro ⟨_,hlong⟩
        have := congrArg List.length hlong
        simp [hpq.2] at this
    · rw [if_neg hpq, descend_snoc]
      cases hu : descend child σ r' p with
      | none =>
        rw [if_neg]
        · rfl
        · rintro ⟨rfl,hpe⟩
          obtain ⟨rfl,_⟩ := List.append_inj' hpe rfl
          simp [ht] at hu
      | some u =>
        by_cases hut : u = t
        · subst hut
          obtain ⟨rfl,rfl⟩ := hs r' p r q u hp hdq hu ht
          by_cases hji : j = i
          · subst hji
            simp [put_same, he]
          · simp [put_other σ e (Or.inr hji), hji]
        · have hne : ¬ (r' = r ∧ p++[j] = q++[i]) := by
            rintro ⟨rfl,hpe⟩
            obtain ⟨rfl,_⟩ := List.append_inj' hpe rfl
            exact hut (Option.some.inj (hu.symm.trans ht))
          rw [if_neg hne]
          simp [put_other σ e (Or.inl hut)]

theorem separate_link : Separate child (put σ t i e) dom := by
  have hl := descend_link child σ dom hc hs r q t n i e hq ht hnone he hn hempty
  intro r₁ p₁ r₂ p₂ u hd₁ hd₂ h₁ h₂
  rw [hl r₁ p₁ hd₁] at h₁
  rw [hl r₂ p₂ hd₂] at h₂
  by_cases c₁ : r₁ = r ∧ p₁ = q++[i] <;> by_cases c₂ : r₂ = r ∧ p₂ = q++[i]
  · exact ⟨c₁.1.trans c₂.1.symm,c₁.2.trans c₂.2.symm⟩
  · rw [if_pos c₁] at h₁
    rw [if_neg c₂, ← h₁] at h₂
    exact absurd ⟨r₂,p₂,hd₂,h₂⟩ hn
  · rw [if_neg c₁] at h₁
    rw [if_pos c₂] at h₂
    exact absurd ⟨r₁,p₁,hd₁,h₁.trans h₂.symm⟩ hn
  · rw [if_neg c₁] at h₁
    rw [if_neg c₂] at h₂
    exact hs r₁ p₁ r₂ p₂ u hd₁ hd₂ h₁ h₂

theorem reached_link (u : T) (hu : Reached child (put σ t i e) dom u) :
    u = n ∨ Reached child σ dom u := by
  obtain ⟨r',p',hd,hu⟩ := hu
  rw [descend_link child σ dom hc hs r q t n i e hq ht hnone he hn hempty r' p' hd] at hu
  split_ifs at hu
  · exact Or.inl (Option.some.inj hu).symm
  · exact Or.inr ⟨r',p',hd,hu⟩

theorem entryAt_link (r' : T) (p' : List I) (hd' : dom r' p') (j : I) :
    entryAt child (put σ t i e) r' p' j =
      if r' = r ∧ p' = q++[i] then some (σ n j)
      else if r' = r ∧ p' = q ∧ j = i then some e else entryAt child σ r' p' j := by
  have hdq : dom r q := hc r q [i] hq
  have htn : n ≠ t := fun h => hn ⟨r,q,hdq,h ▸ ht⟩
  rw [entryAt, descend_link child σ dom hc hs r q t n i e hq ht hnone he hn hempty r' p' hd']
  by_cases h : r' = r ∧ p' = q++[i]
  · simp [h, put_other σ e (Or.inl htn)]
  · rw [if_neg h, if_neg h]
    by_cases hj : r' = r ∧ p' = q ∧ j = i
    · obtain ⟨rfl,rfl,rfl⟩ := hj
      simp [ht, put_same]
    · rw [if_neg hj, entryAt_put child σ dom hs r q t i e hdq ht hd' hj]

end
end
end PreemptiveOS.TableForest
