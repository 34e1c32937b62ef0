/-!
# Results, failures and folds

What a computation that may fail has done when it yields a result, with which errors it can fail,
and what a fold that marks items one by one has marked at its end: what was marked before, and what
some item of the list marks. What each step of a fold keeps holds at its end.
-/

namespace ByteRegex

variable {α β ε δ : Type}

theorem bind_eq_ok {x : Except ε α} {f : α → Except ε β} {b : β} (h : x >>= f = .ok b) :
    ∃ a, x = .ok a ∧ f a = .ok b := by
  cases x with
  | error _ => cases h
  | ok a => exact ⟨a, rfl, h⟩

theorem bind_of_eq_ok {x : Except ε α} {f : α → Except ε β} {a : α} (h : x = .ok a) :
    x >>= f = f a := by
  rw [h]
  rfl

theorem bind_eq_error_iff {x : Except ε α} {f : α → Except ε β} {e : ε} :
    x >>= f = .error e ↔ x = .error e ∨ ∃ a, x = .ok a ∧ f a = .error e := by
  cases x with
  | error d =>
    refine ⟨fun h => .inl (congrArg Except.error (Except.error.inj h)), ?_⟩
    rintro (h | ⟨a, h, -⟩)
    · exact congrArg Except.error (Except.error.inj h)
    · cases h
  | ok a =>
    refine ⟨fun h => .inr ⟨a, rfl, h⟩, ?_⟩
    rintro (h | ⟨b, h, hb⟩)
    · cases h
    · obtain rfl := Except.ok.inj h
      exact hb

theorem exists_ok_of_isOk {x : Except ε α} (h : x.isOk = true) : ∃ a, x = .ok a := by
  cases x with
  | error _ => cases h
  | ok a => exact ⟨a, rfl⟩

theorem map_eq_ok {x : Except ε α} {f : α → β} {b : β} (h : x.map f = .ok b) :
    ∃ a, x = .ok a ∧ f a = b := by
  cases x with
  | error _ => cases h
  | ok a => exact ⟨a, rfl, Except.ok.inj h⟩

theorem mapError_eq_ok_iff {f : ε → δ} {x : Except ε α} {a : α} :
    x.mapError f = .ok a ↔ x = .ok a := by
  cases x with
  | error _ => exact iff_of_false (fun h => nomatch h) (fun h => nomatch h)
  | ok b => exact ⟨fun h => congrArg Except.ok (Except.ok.inj h),
      fun h => congrArg Except.ok (Except.ok.inj h)⟩

/-! ## Failures -/

/-- The errors of a computation all have a property. -/
def FailsWith (P : ε → Prop) (x : Except ε α) : Prop := ∀ e, x = .error e → P e

namespace FailsWith

variable {P : ε → Prop} {x : Except ε α}

theorem ok (a : α) : FailsWith P (.ok a : Except ε α) := fun _ h => nomatch h

theorem error {e : ε} (h : P e) : FailsWith P (.error e : Except ε α) :=
  fun _ h' => Except.error.inj h' ▸ h

theorem mono {Q : ε → Prop} (hx : FailsWith P x) (h : ∀ e, P e → Q e) : FailsWith Q x :=
  fun e he => h e (hx e he)

theorem bind {f : α → Except ε β} (hx : FailsWith P x)
    (hf : ∀ a, x = .ok a → FailsWith P (f a)) : FailsWith P (x >>= f) := by
  cases x with
  | error e => exact .error (hx e rfl)
  | ok a => exact hf a rfl

theorem map (f : α → β) (hx : FailsWith P x) : FailsWith P (x.map f) := by
  cases x with
  | error e => exact .error (hx e rfl)
  | ok a => exact .ok (f a)

theorem mapError {f : ε → δ} {Q : δ → Prop} (hx : FailsWith P x) (hf : ∀ e, P e → Q (f e)) :
    FailsWith Q (x.mapError f) := by
  cases x with
  | error e => exact .error (hf e (hx e rfl))
  | ok a => exact .ok a

end FailsWith

/-! ## Folds -/

theorem foldl_iff {f : β → α → β} {I P : β → Prop} {Q : α → Prop} {l : List α} {b : β}
    (hb : I b) (step : ∀ b, ∀ a ∈ l, I b → I (f b a) ∧ (P (f b a) ↔ P b ∨ Q a)) :
    I (l.foldl f b) ∧ (P (l.foldl f b) ↔ P b ∨ ∃ a ∈ l, Q a) := by
  induction l generalizing b with
  | nil => exact ⟨hb, by simp⟩
  | cons a l ih =>
    obtain ⟨hb', hP⟩ := step b a List.mem_cons_self hb
    obtain ⟨hl, hPl⟩ := ih hb' fun b c hc => step b c (List.mem_cons_of_mem a hc)
    refine ⟨hl, ?_⟩
    rw [List.foldl_cons, hPl, hP, or_assoc]
    simp only [List.mem_cons, exists_eq_or_imp]

/-- What each step of a fold keeps, a fold that succeeds has kept. -/
theorem foldlM_invariant {f : β → α → Except ε β} {I : β → Prop} {l : List α} {b b' : β}
    (step : ∀ {b a b'}, I b → f b a = .ok b' → I b') (hb : I b) (h : l.foldlM f b = .ok b') :
    I b' := by
  induction l generalizing b with
  | nil =>
    obtain rfl := Except.ok.inj h
    exact hb
  | cons a l ih =>
    rw [List.foldlM_cons] at h
    obtain ⟨c, hc, h⟩ := bind_eq_ok h
    exact ih (step hb hc) h

end ByteRegex
