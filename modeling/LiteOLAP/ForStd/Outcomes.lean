import Mathlib

/-!
# Outcomes

What a computation may return, and whether it is defined at all: a specification that allows
several results, and that asks nothing where it is not safe. A program meets a specification when,
wherever that is safe, it returns one of the results allowed.

## Key results

- `safe_bind`, `mem_bind`: a sequence is safe if its second step is on all results of the first
- `Extends`, `Extends.bind`: a computation that is defined wherever another one is
- `bind_congr_of_mem`: what comes after a computation matters on its results only
-/

/-- The results that are allowed, where there is a result at all. -/
structure Outcomes (α : Type) where
  safe : Prop
  may : Set α

namespace Outcomes

variable {α β γ ε σ : Type}

/-- One result. -/
def ret (a : α) : Outcomes α := ⟨True, {a}⟩

/-- Any of these results. -/
def choose (s : Set α) : Outcomes α := ⟨True, s⟩

/-- Defined under a condition only. -/
def require (p : Prop) : Outcomes Unit := ⟨p, {()}⟩

/-- The result of a computation that may throw, where it does not. -/
def ofExcept (x : Except ε α) : Outcomes α := ⟨∃ a, x = .ok a, {a | x = .ok a}⟩

/-- One after the other. The second has to be safe on all results of the first. -/
def bind (m : Outcomes α) (f : α → Outcomes β) : Outcomes β where
  safe := m.safe ∧ ∀ a ∈ m.may, (f a).safe
  may := {b | ∃ a ∈ m.may, b ∈ (f a).may}

instance : Monad Outcomes where
  pure := ret
  bind := bind

@[ext] theorem ext {m n : Outcomes α} (hsafe : m.safe ↔ n.safe) (hmay : ∀ a, a ∈ m.may ↔ a ∈ n.may) :
    m = n := by
  obtain ⟨safe, may⟩ := m
  obtain ⟨safe', may'⟩ := n
  obtain rfl : safe = safe' := propext hsafe
  obtain rfl : may = may' := Set.ext hmay
  rfl

@[simp] theorem safe_pure (a : α) : (pure a : Outcomes α).safe ↔ True := Iff.rfl

@[simp] theorem mem_pure {a b : α} : b ∈ (pure a : Outcomes α).may ↔ b = a := Iff.rfl

@[simp] theorem safe_bind {m : Outcomes α} {f : α → Outcomes β} :
    (m >>= f).safe ↔ m.safe ∧ ∀ a ∈ m.may, (f a).safe := Iff.rfl

@[simp] theorem mem_bind {m : Outcomes α} {f : α → Outcomes β} {b : β} :
    b ∈ (m >>= f).may ↔ ∃ a ∈ m.may, b ∈ (f a).may := Iff.rfl

@[simp] theorem safe_choose {s : Set α} : (choose s).safe ↔ True := Iff.rfl

@[simp] theorem mem_choose {s : Set α} {a : α} : a ∈ (choose s).may ↔ a ∈ s := Iff.rfl

@[simp] theorem safe_require {p : Prop} : (require p).safe ↔ p := Iff.rfl

@[simp] theorem mem_require {p : Prop} {u : Unit} : u ∈ (require p).may ↔ True :=
  ⟨fun _ => trivial, fun _ => rfl⟩

@[simp] theorem safe_ofExcept {x : Except ε α} : (ofExcept x).safe ↔ ∃ a, x = .ok a := Iff.rfl

@[simp] theorem mem_ofExcept {x : Except ε α} {a : α} : a ∈ (ofExcept x).may ↔ x = .ok a := Iff.rfl

private theorem ret_bind (a : α) (f : α → Outcomes β) : (pure a >>= f) = f a := by
  apply ext
  · simp
  · simp

private theorem bind_ret (m : Outcomes α) : (m >>= pure) = m := by
  apply ext
  · simp
  · simp

private theorem bind_bind (m : Outcomes α) (f : α → Outcomes β) (g : β → Outcomes γ) :
    (m >>= f >>= g) = m >>= fun a => f a >>= g := by
  apply ext
  · simp only [safe_bind, mem_bind]
    constructor
    · intro h
      exact ⟨h.1.1, fun a ha => ⟨h.1.2 a ha, fun b hb => h.2 b ⟨a, ha, hb⟩⟩⟩
    · intro h
      refine ⟨⟨h.1, fun a ha => (h.2 a ha).1⟩, fun b hb => ?_⟩
      obtain ⟨a, ha, hb⟩ := hb
      exact (h.2 a ha).2 b hb
  · intro c
    simp only [mem_bind]
    constructor
    · rintro ⟨b, ⟨a, ha, hb⟩, hc⟩
      exact ⟨a, ha, b, hb, hc⟩
    · rintro ⟨a, ha, b, hb, hc⟩
      exact ⟨b, ⟨a, ha, hb⟩, hc⟩

instance : LawfulMonad Outcomes := LawfulMonad.mk' Outcomes bind_ret ret_bind bind_bind

/-- Defined wherever the other one is, with the same results there. -/
def Extends (m n : Outcomes α) : Prop := n.safe → m.safe ∧ m.may = n.may

theorem Extends.refl (m : Outcomes α) : m.Extends m := fun h => ⟨h, rfl⟩

theorem Extends.of_eq {m n : Outcomes α} (h : m = n) : m.Extends n := h ▸ .refl m

theorem Extends.trans {m n o : Outcomes α} (h : m.Extends n) (h' : n.Extends o) : m.Extends o := by
  intro hsafe
  obtain ⟨hn, hmay'⟩ := h' hsafe
  obtain ⟨hm, hmay⟩ := h hn
  exact ⟨hm, hmay.trans hmay'⟩

/-- What comes after may be defined on more results as well. -/
theorem Extends.bind {m n : Outcomes α} {f g : α → Outcomes β} (h : m.Extends n)
    (hfg : ∀ a ∈ n.may, (f a).Extends (g a)) : (m >>= f).Extends (n >>= g) := by
  intro hsafe
  obtain ⟨hn, hg⟩ := safe_bind.mp hsafe
  obtain ⟨hm, hmay⟩ := h hn
  refine ⟨safe_bind.mpr ⟨hm, fun a ha => (hfg a (hmay ▸ ha) (hg a (hmay ▸ ha))).1⟩, Set.ext fun b => ?_⟩
  rw [mem_bind, mem_bind, hmay]
  exact exists_congr fun a => and_congr_right fun ha => by rw [(hfg a ha (hg a ha)).2]

theorem Extends.bind_right {m n : Outcomes α} (h : m.Extends n) (f : α → Outcomes β) :
    (m >>= f).Extends (n >>= f) := h.bind fun a _ => .refl (f a)

/-- Nothing has to be asked for that holds. -/
theorem require_bind {p : Prop} (hp : p) (m : Outcomes α) : (require p >>= fun _ => m) = m := by
  apply ext
  · rw [safe_bind]
    exact ⟨fun h => h.2 () rfl, fun h => ⟨hp, fun _ _ => h⟩⟩
  · intro a
    rw [mem_bind]
    exact ⟨fun ⟨_, _, ha⟩ => ha, fun ha => ⟨(), rfl, ha⟩⟩

/-- What comes after a computation matters on its results only. -/
theorem bind_congr_of_mem {m : Outcomes α} {f g : α → Outcomes β} (h : ∀ a ∈ m.may, f a = g a) :
    m >>= f = m >>= g := by
  apply ext
  · simp only [safe_bind]
    exact and_congr_right fun _ => forall₂_congr fun a ha => by rw [h a ha]
  · intro b
    simp only [mem_bind]
    exact exists_congr fun a => and_congr_right fun ha => by rw [h a ha]

end Outcomes
