import ByteRegex.Label.Basic
import Mathlib.Computability.Language

/-!
# Paths and the words on them

Fragments, graphs and automata all assign to each state a list of edges. A path is defined once,
over any such assignment, and grows at its end. Its word is the list of the labels it follows,
epsilons included; what it spells is that word without its epsilons.

* `Path.map` carries paths along a renaming of states.
* `Spells.invariant` is the form in which all later arguments about paths are made: what holds at
  the start and is kept by every edge holds wherever a path leads.
-/

namespace ByteRegex

/-- A word without its epsilons. -/
def dropEpsilons (u : List Label) : List Label := u.filter (· ≠ .epsilon)

@[simp] theorem dropEpsilons_append (u v : List Label) :
    dropEpsilons (u ++ v) = dropEpsilons u ++ dropEpsilons v := List.filter_append ..

@[simp] theorem dropEpsilons_epsilon : dropEpsilons [.epsilon] = [] := rfl

theorem dropEpsilons_of_ne {l : Label} (h : l ≠ .epsilon) : dropEpsilons [l] = [l] := by
  simp [dropEpsilons, h]

theorem dropEpsilons_eq_self {u : List Label} (h : ∀ l ∈ u, l ≠ .epsilon) :
    dropEpsilons u = u := by
  rw [dropEpsilons, List.filter_eq_self]
  exact fun l hl => decide_eq_true (h l hl)

/-- The states that edges lead to from `s`, with the labels that are followed. -/
inductive Path (edges : Nat → List Edge) (s : Nat) : List Label → Nat → Prop where
  | refl : Path edges s [] s
  | step {u : List Label} {t : Nat} {e : Edge} :
    Path edges s u t → e ∈ edges t → Path edges s (u ++ [e.label]) e.target

variable {E E' : Nat → List Edge} {s t r : Nat} {u v w : List Label}

namespace Path

theorem trans (h : Path E s u t) (h' : Path E t v r) : Path E s (u ++ v) r := by
  induction h' with
  | refl => rw [List.append_nil]; exact h
  | step _ he ih => rw [← List.append_assoc]; exact ih.step he

/-- A renaming of states that keeps edges keeps paths. -/
theorem map {f : Nat → Nat} (hE : ∀ {s e}, e ∈ E s → e.retarget f ∈ E' (f s))
    (h : Path E s u t) : Path E' (f s) u (f t) := by
  induction h with
  | refl => exact .refl
  | step _ he ih => exact ih.step (hE he)

theorem mono (hE : ∀ {s e}, e ∈ E s → e ∈ E' s) (h : Path E s u t) : Path E' s u t :=
  h.map (f := id) hE

/-- The labels of a path are labels of edges. -/
theorem label_mem {l : Label} (h : Path E s u t) (hl : l ∈ u) : ∃ q e, e ∈ E q ∧ e.label = l := by
  induction h with
  | refl => simp at hl
  | @step u t e _ he ih =>
    rcases List.mem_append.mp hl with hl | hl
    · exact ih hl
    · exact ⟨t, e, he, (List.mem_singleton.mp hl).symm⟩

end Path

/-- A word without epsilons that some path spells. -/
def Spells (edges : Nat → List Edge) (s : Nat) (w : List Label) (t : Nat) : Prop :=
  ∃ u, Path edges s u t ∧ dropEpsilons u = w

namespace Spells

theorem refl : Spells E s [] s := ⟨[], .refl, rfl⟩

theorem step {e : Edge} (h : Spells E s w t) (he : e ∈ E t) :
    Spells E s (w ++ dropEpsilons [e.label]) e.target := by
  obtain ⟨u, hu, rfl⟩ := h
  exact ⟨u ++ [e.label], hu.step he, dropEpsilons_append ..⟩

theorem epsilon (h : Spells E s w t) (he : ⟨r, .epsilon⟩ ∈ E t) : Spells E s w r := by
  have := h.step he
  rwa [dropEpsilons_epsilon, List.append_nil] at this

theorem trans (h : Spells E s w t) (h' : Spells E t v r) : Spells E s (w ++ v) r := by
  obtain ⟨u, hu, rfl⟩ := h
  obtain ⟨u', hu', rfl⟩ := h'
  exact ⟨u ++ u', hu.trans hu', dropEpsilons_append ..⟩

theorem map {f : Nat → Nat} (hE : ∀ {s e}, e ∈ E s → e.retarget f ∈ E' (f s))
    (h : Spells E s w t) : Spells E' (f s) w (f t) := by
  obtain ⟨u, hu, rfl⟩ := h
  exact ⟨u, hu.map hE, rfl⟩

theorem mono (hE : ∀ {s e}, e ∈ E s → e ∈ E' s) (h : Spells E s w t) : Spells E' s w t :=
  h.map (f := id) hE

/-- **What holds at the start and is kept by every edge holds wherever a path leads.** -/
theorem invariant {P : List Label → Nat → Prop} (h : Spells E s w t) (start : P [] s)
    (edge : ∀ {w t e}, P w t → e ∈ E t → P (w ++ dropEpsilons [e.label]) e.target) : P w t := by
  obtain ⟨u, hu, rfl⟩ := h
  induction hu with
  | refl => exact start
  | step _ he ih => rw [dropEpsilons_append]; exact edge ih he

/-- A path is of epsilon edges only, or there is a first edge that is none. -/
theorem nil_or_exists (h : Spells E s w t) :
    Spells E s [] t ∨ ∃ q e, Spells E s [] q ∧ e ∈ E q ∧ e.label ≠ .epsilon := by
  refine h.invariant (P := fun _ t => Spells E s [] t ∨
    ∃ q e, Spells E s [] q ∧ e ∈ E q ∧ e.label ≠ .epsilon) (.inl .refl) ?_
  rintro w t ⟨target, label⟩ (ht | hexists) he
  · by_cases hl : label = .epsilon
    · subst hl
      exact .inl (ht.epsilon he)
    · exact .inr ⟨t, _, ht, he, hl⟩
  · exact .inr hexists

/-- A path to another state has a first edge. -/
theorem exists_mem_of_ne (h : Spells E s w t) (hne : t ≠ s) : ∃ e, e ∈ E s := by
  have key := h.invariant (P := fun _ t => t = s ∨ ∃ e, e ∈ E s) (.inl rfl) fun ht he => by
    rcases ht with rfl | hexists
    · exact .inr ⟨_, he⟩
    · exact .inr hexists
  exact key.resolve_left hne

/-- A path to another state has an edge that enters it from elsewhere. -/
theorem exists_entering (h : Spells E s w t) (hne : t ≠ s) :
    ∃ q, q ≠ t ∧ ∃ e ∈ E q, e.target = t := by
  have key := h.invariant (P := fun _ t => t = s ∨ ∃ q, q ≠ t ∧ ∃ e ∈ E q, e.target = t)
    (.inl rfl) fun {w t e} ht he => by
      by_cases het : e.target = t
      · rw [het]
        exact ht
      · exact .inr ⟨t, Ne.symm het, e, he, rfl⟩
  exact key.resolve_left hne

/-- A path back to a state that no edge enters has no edges. -/
theorem eq_nil_of_not_entered (h : Spells E s w s) (hs : ∀ q, ∀ e ∈ E q, e.target ≠ s) :
    w = [] := by
  have key : ∀ {t}, Spells E s w t → t = s → w = [] := fun h =>
    h.invariant (P := fun w t => t = s → w = []) (fun _ => rfl)
      fun _ he hs' => absurd hs' (hs _ _ he)
  exact key h rfl

end Spells

end ByteRegex
