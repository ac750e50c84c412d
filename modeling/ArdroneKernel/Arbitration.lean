import Mathlib.Data.Set.Insert

/-!
# Choosing among copies

Copies of one thing have ages, a higher number being newer, and some of them
are good. Of two copies the newer one is taken if it is good, and else the
older one, which is not looked at. Going through any set of copies this way
ends with the newest good copy, or with the oldest copy if none is good.
-/

namespace ArdroneKernel.Arbitration

variable {α : Type} (age : α → ℕ) (good : α → Prop)

/-- The one of two copies that is kept. -/
def better [DecidablePred good] (a b : α) : α :=
  if age a<age b then (if good b then b else a) else (if good a then a else b)

/-- The copy to be kept of a set: the newest good one, or the oldest. -/
structure Best (s : Set α) (a : α) : Prop where
  mem : a∈s
  best : (good a∧∀ b∈s,b≠a → good b → age b<age a)∨
    ((∀ b∈s,¬good b)∧∀ b∈s,b≠a → age a<age b)

variable {age good}

theorem Best.singleton (a : α) : Best age good {a} a where
  mem := Set.mem_singleton a
  best := by
    by_cases ha : good a
    · exact Or.inl ⟨ha,fun b hb hne => absurd hb hne⟩
    · exact Or.inr ⟨fun b hb => hb.symm▸ha,fun b hb hne => absurd hb hne⟩

/-- There is only one copy to be kept. -/
theorem Best.unique {s : Set α} {a b : α} (h : Best age good s a) (k : Best age good s b) :
    a=b := by
  by_contra hne
  rcases h.best with ⟨ha,hold⟩|⟨hbad,hnew⟩ <;> rcases k.best with ⟨hb,hold'⟩|⟨hbad',hnew'⟩
  · exact lt_asymm (hold b k.mem (Ne.symm hne) hb) (hold' a h.mem hne ha)
  · exact hbad' a h.mem ha
  · exact hbad b k.mem hb
  · exact lt_asymm (hnew b k.mem (Ne.symm hne)) (hnew' a h.mem hne)

/-- One more copy is compared with the one kept so far. -/
theorem Best.insert [DecidablePred good] {s : Set α} {a b : α} (h : Best age good s a)
    (hne : age a≠age b) : Best age good (insert b s) (better age good a b) := by
  have mem : ∀ x,x=a∨x=b → x∈Insert.insert b s := by
    rintro x (rfl|rfl)
    · exact Or.inr h.mem
    · exact Or.inl rfl
  unfold better
  by_cases hlt : age a<age b
  · rw [if_pos hlt]
    by_cases hb : good b
    · rw [if_pos hb]
      refine ⟨mem b (Or.inr rfl),Or.inl ⟨hb,?_⟩⟩
      rintro x (rfl|hx) hxb hgx
      · exact absurd rfl hxb
      · rcases h.best with ⟨_,hold⟩|⟨hbad,_⟩
        · by_cases hxa : x=a
          · exact hxa.symm▸hlt
          · exact lt_trans (hold x hx hxa hgx) hlt
        · exact absurd hgx (hbad x hx)
    · rw [if_neg hb]
      refine ⟨mem a (Or.inl rfl),?_⟩
      rcases h.best with ⟨ha,hold⟩|⟨hbad,hnew⟩
      · refine Or.inl ⟨ha,?_⟩
        rintro x (rfl|hx) hxa hgx
        · exact absurd hgx hb
        · exact hold x hx hxa hgx
      · refine Or.inr ⟨?_,?_⟩
        · rintro x (rfl|hx)
          · exact hb
          · exact hbad x hx
        · rintro x (rfl|hx) hxa
          · exact hlt
          · exact hnew x hx hxa
  · rw [if_neg hlt]
    have hgt : age b<age a := lt_of_le_of_ne (not_lt.mp hlt) (Ne.symm hne)
    rcases h.best with ⟨ha,hold⟩|⟨hbad,hnew⟩
    · rw [if_pos ha]
      refine ⟨mem a (Or.inl rfl),Or.inl ⟨ha,?_⟩⟩
      rintro x (rfl|hx) hxa hgx
      · exact hgt
      · exact hold x hx hxa hgx
    · rw [if_neg (hbad a h.mem)]
      refine ⟨mem b (Or.inr rfl),?_⟩
      by_cases hb : good b
      · refine Or.inl ⟨hb,?_⟩
        rintro x (rfl|hx) hxb hgx
        · exact absurd rfl hxb
        · exact absurd hgx (hbad x hx)
      · refine Or.inr ⟨?_,?_⟩
        · rintro x (rfl|hx)
          · exact hb
          · exact hbad x hx
        · rintro x (rfl|hx) hxb
          · exact absurd rfl hxb
          · by_cases hxa : x=a
            · exact hxa.symm▸hgt
            · exact lt_trans hgt (hnew x hx hxa)

end ArdroneKernel.Arbitration
