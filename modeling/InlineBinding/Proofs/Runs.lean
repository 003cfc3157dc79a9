/-!
# Runs without a failure

A computation with a state that ends well has ended well at each of its steps, and each state is
where the next step began.
-/
namespace InlineBinding

variable {ε σ α β : Type} {p p' : σ}

theorem bind_ok {x : EStateM ε σ α} {f : α → EStateM ε σ β} {b : β}
    (h : (x >>= f) p = .ok b p') : ∃ a q, x p = .ok a q ∧ f a q = .ok b p' := by
  cases hx : x p with
  | ok a q => exact ⟨a, q, rfl, by simpa [bind, EStateM.bind, hx] using h⟩
  | error e q => simp [bind, EStateM.bind, hx] at h

theorem get_bind (f : σ → EStateM ε σ β) : ((get : EStateM ε σ σ) >>= f) p = f p p := rfl

theorem modify_bind (g : σ → σ) (f : Unit → EStateM ε σ β) :
    ((modify g : EStateM ε σ Unit) >>= f) p = f () (g p) := rfl

theorem bind_of_ok {x : EStateM ε σ α} {f : α → EStateM ε σ β} {a : α} {q : σ}
    (h : x p = .ok a q) : (x >>= f) p = f a q := by
  simp [bind, EStateM.bind, h]

theorem pure_ok {a b : α} (h : (pure a : EStateM ε σ α) p = .ok b p') : a = b ∧ p = p' := by
  cases h
  exact ⟨rfl, rfl⟩

theorem forM_cons_ok {f : β → EStateM ε σ Unit} {b : β} {bs : List β} {u : Unit}
    (h : (b :: bs).forM f p = .ok u p') : ∃ q, f b p = .ok () q ∧ bs.forM f q = .ok () p' := by
  obtain ⟨a, q, hb, hbs⟩ := bind_ok h
  exact ⟨q, hb, hbs⟩

end InlineBinding
