/-!
# Runs of stateful programs

How a sequence of two programs that keep a state and may fail runs, forwards and backwards.
-/
namespace Copione.Run

variable {ε σ α β : Type} {x : EStateM ε σ α} {f : α → EStateM ε σ β} {s t : σ}

theorem bind_of_ok {a : α} (h : x s = .ok a t) : (x >>= f) s = f a t := by
  change EStateM.bind x f s = _
  rw [EStateM.bind, h]

theorem bind_of_error {e : ε} (h : x s = .error e t) : (x >>= f) s = .error e t := by
  change EStateM.bind x f s = _
  rw [EStateM.bind, h]

theorem bind_congr {y : EStateM ε σ α} (h : x s = y s) (f : α → EStateM ε σ β) :
    (x >>= f) s = (y >>= f) s := by
  change EStateM.bind x f s = EStateM.bind y f s
  rw [EStateM.bind, EStateM.bind, h]

/-- A sequence ends well only through a first part that does. -/
theorem of_bind_ok {b : β} {u : σ} (h : (x >>= f) s = .ok b u) :
    ∃ a t, x s = .ok a t ∧ f a t = .ok b u := by
  cases hx : x s with
  | ok a t => exact ⟨a, t, rfl, by rwa [bind_of_ok hx] at h⟩
  | error e t => rw [bind_of_error hx] at h; cases h

theorem of_bind_ok_choice {b : β} {u : σ} (h : (x >>= f) s = .ok b u) :
    ∃ a t y, x s = .ok a t ∧ f a = y ∧ y t = .ok b u := by
  obtain ⟨a, t, hx, hf⟩ := of_bind_ok h
  exact ⟨a, t, f a, hx, rfl, hf⟩

theorem map_of_ok {g : α → β} {a : α} (h : x s = .ok a t) : (g <$> x) s = .ok (g a) t := by
  change EStateM.map g x s = _
  rw [EStateM.map, h]

theorem map_of_error {g : α → β} {e : ε} (h : x s = .error e t) : (g <$> x) s = .error e t := by
  change EStateM.map g x s = _
  rw [EStateM.map, h]

theorem discard_congr {y : EStateM ε σ α} (h : x s = y s) : discard x s = discard y s := by
  change EStateM.map _ x s = EStateM.map _ y s
  rw [EStateM.map, EStateM.map, h]

theorem of_map_ok {g : α → β} {b : β} {u : σ} (h : (g <$> x) s = .ok b u) :
    ∃ a, x s = .ok a u ∧ g a = b := by
  cases hx : x s with
  | ok a t =>
    rw [map_of_ok hx] at h
    obtain ⟨hb, rfl⟩ := EStateM.Result.ok.inj h
    exact ⟨a, rfl, hb⟩
  | error e t => rw [map_of_error hx] at h; cases h

theorem eq_ok_of_toOption {r : Except ε α} {a : α} (h : r.toOption = some a) : r = .ok a := by
  cases r with
  | error _ => cases h
  | ok _ => exact congrArg _ (Option.some.inj h)

@[simp] theorem pure_apply (a : α) : (pure a : EStateM ε σ α) s = .ok a s := rfl

@[simp] theorem get_apply : (get : EStateM ε σ σ) s = .ok s s := rfl

@[simp] theorem set_apply : (set t : EStateM ε σ PUnit) s = .ok ⟨⟩ t := rfl

@[simp] theorem modify_apply (g : σ → σ) : (modify g : EStateM ε σ PUnit) s = .ok ⟨⟩ (g s) := rfl

end Copione.Run
