import LiteOLAP.ForStd.Except

/-!
# Postconditions of runs that may throw

`x.Ensures P` says that a result of `x`, if there is one, has the property `P`. It asks nothing
where `x` throws, so that a property of what a parser or a checker accepts is proved along the
steps of its success.

## Key results

- `Ensures.bind`: the rule for a sequence
- `Ensures.mono`: a weaker property
-/

namespace Except

variable {ε α β : Type} {P Q : α → Prop} {R : β → Prop} {x : Except ε α} {f : α → Except ε β}

/-- Every result has the property. -/
def Ensures (x : Except ε α) (P : α → Prop) : Prop := ∀ a, x = .ok a → P a

theorem ensures_ok {a : α} (h : P a) : (Except.ok a : Except ε α).Ensures P := by
  rintro b hb
  obtain rfl := Except.ok.inj hb
  exact h

theorem ensures_error (e : ε) : (Except.error e : Except ε α).Ensures P := by
  rintro b hb
  cases hb

/-- A sequence has the property that its second step ensures of all results of the first. -/
theorem Ensures.bind (hx : x.Ensures P) (hf : ∀ a, P a → (f a).Ensures R) :
    (x >>= f).Ensures R := by
  intro b hb
  obtain ⟨a, ha, hb⟩ := bind_eq_ok.1 hb
  exact hf a (hx a ha) b hb

theorem Ensures.mono (hx : x.Ensures P) (h : ∀ a, P a → Q a) : x.Ensures Q :=
  fun a ha => h a (hx a ha)

end Except
