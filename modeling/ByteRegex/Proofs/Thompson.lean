import ByteRegex.Nfa.Thompson
import ByteRegex.Proofs.Basic
import ByteRegex.Proofs.Expression
import ByteRegex.Proofs.Fragment.Language

/-!
# The fragment of a tree has the language of the tree

The labels of a fragment name classes by their place in a pool, and `Label.letter?` looks them up.
A fragment realizes an expression (`Fragment.Realizes`) if it is well formed and its words, looked
up in the pool, are the words of the expression. Each combination of fragments realizes the same
combination of expressions, and a pool that grows takes nothing back (`Realizes.extend`).

The invariant of the construction is `Workshop.Sound`: whatever lies in the slot of a node realizes
the expression below that node. It does not depend on the order in which nodes are compiled, so
shared children and children that nobody takes need no case of their own.

Main statement: the fragment of a tree realizes the expression that the tree stands for
(`Nfa.realizes_ofTree`).
-/

open scoped Computability

namespace ByteRegex

/-- A well-formed fragment whose words are those of an expression. -/
structure Fragment.Realizes (classes : Array ByteClass) (f : Fragment) (e : Expr) : Prop where
  wellFormed : f.WellFormed
  language : f.language.map (Label.letter? classes) = e.language.map some

namespace Fragment.Realizes

variable {classes classes' : Array ByteClass} {f l r : Fragment} {e a b : Expr}

theorem leaf {label : Label} {x : Letter} (h : label.letter? classes = some x) :
    (Fragment.leaf label).Realizes classes (.letter x) where
  wellFormed := .leaf label
  language := by
    have hne : label ≠ .epsilon := by
      rintro rfl
      simp [Label.letter?] at h
    rw [language_leaf hne]
    show (List.map (Label.letter? classes) '' {[label]} : Set _) = List.map some '' {[x]}
    rw [Set.image_singleton, Set.image_singleton, List.map_singleton, h, List.map_singleton]

theorem concat (hl : l.Realizes classes a) (hr : r.Realizes classes b) :
    (l.concat r).Realizes classes (.concat a b) where
  wellFormed := hl.wellFormed.concat hr.wellFormed
  language := by
    rw [language_concat hl.wellFormed hr.wellFormed, map_mul, hl.language, hr.language, ← map_mul]
    rfl

theorem alternate (fastUnion : Bool) (hl : l.Realizes classes a) (hr : r.Realizes classes b) :
    (Thompson.alternate fastUnion l r).Realizes classes (.alternation a b) := by
  have key : ∀ g : Fragment, g.WellFormed → g.language = l.language + r.language →
      g.Realizes classes (.alternation a b) := fun g hg h =>
    ⟨hg, by rw [h, map_add, hl.language, hr.language, ← map_add]; rfl⟩
  unfold Thompson.alternate
  split
  · next h =>
    have h2 : r.isTwoState = true := (Bool.and_eq_true _ _ ▸ h).2
    exact key _ hl.wellFormed.fastUnion (language_fastUnion hl.wellFormed hr.wellFormed h2)
  · split
    · next h =>
      have h2 : l.isTwoState = true := (Bool.and_eq_true _ _ ▸ h).2
      refine key _ hr.wellFormed.fastUnion ?_
      rw [language_fastUnion hr.wellFormed hl.wellFormed h2, add_comm]
    · exact key _ (hl.wellFormed.union hr.wellFormed) (language_union hl.wellFormed hr.wellFormed)

theorem opt (hf : f.Realizes classes e) : f.opt.Realizes classes (.opt e) where
  wellFormed := hf.wellFormed.opt
  language := by
    rw [language_opt hf.wellFormed, map_add, map_one, hf.language]
    show _ = (1 + e.language).map some
    rw [map_add, map_one]

theorem star (hf : f.Realizes classes e) : f.star.Realizes classes (.star e) where
  wellFormed := hf.wellFormed.star
  language := by
    rw [language_star hf.wellFormed, Language.map_kstar, hf.language, ← Language.map_kstar]
    rfl

theorem plus (hf : f.Realizes classes e) : f.plus.Realizes classes (.plus e) where
  wellFormed := hf.wellFormed.plus
  language := by
    rw [language_plus hf.wellFormed, map_mul, Language.map_kstar, hf.language,
      ← Language.map_kstar, ← map_mul]
    rfl

theorem empty : Fragment.epsilon.Realizes classes .empty where
  wellFormed := .leaf .epsilon
  language := by
    rw [language_epsilon, map_one]
    exact (map_one _).symm

/-- A pool that grows keeps the meaning of all labels that had one. -/
theorem extend (hf : f.Realizes classes e)
    (h : ∀ (id : Nat) (c : ByteClass), classes[id]? = some c → classes'[id]? = some c) :
    f.Realizes classes' e where
  wellFormed := hf.wellFormed
  language := by
    rw [← hf.language]
    refine Set.image_congr fun w hw => List.map_congr_left fun label hlabel => ?_
    have hmem : w.map (Label.letter? classes) ∈ e.language.map some := by
      rw [← hf.language]
      exact ⟨w, hw, rfl⟩
    obtain ⟨v, -, hv⟩ := hmem
    have hsome : label.letter? classes ∈ v.map some := by
      rw [show v.map some = w.map (Label.letter? classes) from hv]
      exact List.mem_map_of_mem hlabel
    obtain ⟨x, -, hx⟩ := List.mem_map.mp hsome
    cases label with
    | classRef id =>
      obtain ⟨c, hc, -⟩ := Option.map_eq_some_iff.mp hx.symm
      rw [Label.letter?, Label.letter?, hc, h id c hc]
    | _ => rfl

end Fragment.Realizes

namespace Thompson

/-! ## Repetition counts -/

section Count

variable {budget n : Nat} {f g piece tail : Fragment} {whole whole' : Option Fragment}

theorem withinBudget_eq_ok_iff :
    withinBudget budget f = .ok g ↔ g = f ∧ f.size ≤ budget := by
  unfold withinBudget
  split
  · next hle =>
    rw [Except.ok.injEq, eq_comm]
    exact (and_iff_left hle).symm
  · next hgt => exact iff_of_false (fun h => nomatch h) fun h => hgt h.2

theorem eq_of_withinBudget (h : withinBudget budget f = .ok g) : g = f :=
  (withinBudget_eq_ok_iff.mp h).1

/-- What was built so far; nothing reads as the empty text. -/
def wholeLanguage : Option Fragment → Language Label
  | none => 1
  | some f => f.language

theorem append_ok (hw : ∀ f ∈ whole, f.WellFormed) (hp : piece.WellFormed)
    (h : append budget whole piece = .ok g) :
    g.WellFormed ∧ g.language = wholeLanguage whole * piece.language := by
  obtain rfl := eq_of_withinBudget h
  cases whole with
  | none => exact ⟨hp, (one_mul _).symm⟩
  | some f => exact ⟨(hw f rfl).concat hp, Fragment.language_concat (hw f rfl) hp⟩

theorem appendCopies_ok (hw : ∀ f ∈ whole, f.WellFormed) (hp : piece.WellFormed)
    (h : appendCopies budget piece n whole = .ok whole') :
    (∀ f ∈ whole', f.WellFormed) ∧
      wholeLanguage whole' = wholeLanguage whole * piece.language ^ n := by
  induction n generalizing whole with
  | zero =>
    obtain rfl := Except.ok.inj h
    exact ⟨hw, by rw [pow_zero, mul_one]⟩
  | succ n ih =>
    obtain ⟨g, hg, h⟩ := bind_eq_ok h
    obtain ⟨hgw, hgl⟩ := append_ok hw hp hg
    obtain ⟨hw', hl⟩ := ih (fun f hf => Option.some.inj hf ▸ hgw) h
    refine ⟨hw', ?_⟩
    rw [hl, show wholeLanguage (some g) = _ from hgl, mul_assoc, pow_succ']

/-- Up to a number of copies of a language. -/
theorem one_add_mul_repetitions {L : Language Label} (n : Nat) :
    1 + L * repetitions (· ≤ n) L = repetitions (· ≤ n + 1) L := by
  ext w
  constructor
  · rintro (rfl | ⟨x, hx, v, ⟨k, hk, hv⟩, rfl⟩)
    · exact ⟨0, Nat.zero_le _, by rw [pow_zero]; rfl⟩
    · exact ⟨k + 1, Nat.succ_le_succ hk, by rw [pow_succ']; exact ⟨x, hx, v, hv, rfl⟩⟩
  · rintro ⟨k, hk, hw⟩
    cases k with
    | zero => exact .inl (by rwa [pow_zero] at hw)
    | succ k =>
      rw [pow_succ'] at hw
      obtain ⟨x, hx, v, hv, rfl⟩ := hw
      exact .inr ⟨x, hx, v, ⟨k, Nat.le_of_succ_le_succ hk, hv⟩, rfl⟩

theorem nestOptional_ok {m : Nat} (hp : piece.WellFormed) (ht : tail.WellFormed)
    (hl : tail.language = repetitions (· ≤ m) piece.language)
    (h : nestOptional budget piece n tail = .ok g) :
    g.WellFormed ∧ g.language = repetitions (· ≤ m + n) piece.language := by
  induction n generalizing tail m with
  | zero =>
    obtain rfl := Except.ok.inj h
    exact ⟨ht, hl⟩
  | succ n ih =>
    obtain ⟨t, ht', h⟩ := bind_eq_ok h
    obtain rfl := eq_of_withinBudget ht'
    rw [show m + (n + 1) = m + 1 + n by omega]
    refine ih (hp.concat ht).opt ?_ h
    rw [Fragment.language_opt (hp.concat ht), Fragment.language_concat hp ht, hl,
      one_add_mul_repetitions]

/-- Some copies of a language, and then as many more as `allows` permits. -/
theorem pow_mul_repetitions {L : Language Label} {allows : Nat → Prop} (m : Nat) :
    L ^ m * repetitions allows L = repetitions (fun k => m ≤ k ∧ allows (k - m)) L := by
  ext w
  constructor
  · rintro ⟨x, hx, v, ⟨k, hk, hv⟩, rfl⟩
    refine ⟨m + k, ⟨Nat.le_add_right .., (Nat.add_sub_cancel_left ..).symm ▸ hk⟩, ?_⟩
    rw [pow_add]
    exact ⟨x, hx, v, hv, rfl⟩
  · rintro ⟨k, ⟨hmk, hk⟩, hw⟩
    rw [← Nat.add_sub_of_le hmk, pow_add] at hw
    obtain ⟨x, hx, v, hv, rfl⟩ := hw
    exact ⟨x, hx, v, ⟨k - m, hk, hv⟩, rfl⟩

theorem repetitions_congr {L : Language Label} {allows allows' : Nat → Prop}
    (h : ∀ k, allows k ↔ allows' k) : repetitions allows L = repetitions allows' L :=
  congrArg (repetitions · L) (funext fun k => propext (h k))

theorem repetitions_eq {L : Language Label} (m : Nat) : repetitions (· = m) L = L ^ m := by
  ext w
  constructor
  · rintro ⟨_, rfl, hw⟩
    exact hw
  · intro hw
    exact ⟨m, rfl, hw⟩

theorem language_opt_le_one (hp : piece.WellFormed) :
    piece.opt.language = repetitions (· ≤ 1) piece.language := by
  have hzero : repetitions (· ≤ 0) piece.language = 1 := by
    rw [repetitions_congr fun _ => Nat.le_zero, repetitions_eq, pow_zero]
  rw [Fragment.language_opt hp, ← one_add_mul_repetitions, hzero, mul_one]

/-- **A repetition count builds as many copies as it allows.** -/
theorem repeated_ok {min : Nat} {max : Option Nat} (hp : piece.WellFormed)
    (h : repeated budget piece min max = .ok g) :
    g.WellFormed ∧ g.language = repetitions (CountAllows min max) piece.language := by
  obtain ⟨whole, hwhole, h⟩ := bind_eq_ok h
  obtain ⟨hw, hl⟩ := appendCopies_ok (by simp) hp hwhole
  rw [show wholeLanguage none = 1 from rfl, one_mul] at hl
  cases max with
  | none =>
    obtain ⟨hg, hgl⟩ := append_ok hw hp.star h
    refine ⟨hg, ?_⟩
    rw [hgl, hl, Fragment.language_star hp, kstar_eq_repetitions, pow_mul_repetitions]
    exact repetitions_congr fun k => and_congr_right fun _ => by simp
  | some max =>
    have hallows : ∀ k, CountAllows min (some max) k ↔ min ≤ k ∧ k ≤ Max.max min max := fun k =>
      and_congr_right fun _ => ⟨fun h => h max rfl, fun h n hn => Option.some.inj hn ▸ h⟩
    rw [repetitions_congr hallows]
    dsimp only at h
    split at h
    · next hlt =>
      obtain ⟨tail, htail, h⟩ := bind_eq_ok h
      obtain ⟨ht, htl⟩ := nestOptional_ok hp hp.opt (language_opt_le_one hp) htail
      obtain ⟨hg, hgl⟩ := append_ok hw ht h
      refine ⟨hg, ?_⟩
      rw [hgl, hl, htl, pow_mul_repetitions]
      exact repetitions_congr fun k => by omega
    · next hle =>
      obtain rfl := Except.ok.inj h
      have hone : ∀ k, (min ≤ k ∧ k ≤ Max.max min max) ↔ k = min := fun k => by omega
      rw [repetitions_congr hone, repetitions_eq, ← hl]
      cases whole with
      | none => exact ⟨.leaf .epsilon, Fragment.language_epsilon⟩
      | some f => exact ⟨hw f rfl, rfl⟩

theorem realizes_repeated {min : Nat} {max : Option Nat} {classes : Array ByteClass} {e : Expr}
    (hf : f.Realizes classes e) (h : repeated budget f min max = .ok g) :
    g.Realizes classes (.count min max e) := by
  obtain ⟨hg, hl⟩ := repeated_ok hf.wellFormed h
  refine ⟨hg, ?_⟩
  rw [hl, map_repetitions, hf.language, ← map_repetitions]
  rfl

end Count

/-! ## The pool of classes -/

theorem intern_extends {classes : Array ByteClass} {c : ByteClass} (id : Nat) (d : ByteClass)
    (h : classes[id]? = some d) : (intern classes c).1[id]? = some d := by
  unfold intern
  split
  · exact h
  · obtain ⟨hlt, -⟩ := Array.getElem?_eq_some_iff.mp h
    rw [Array.getElem?_push_lt hlt, ← Array.getElem?_eq_getElem hlt, h]

theorem getElem?_intern (classes : Array ByteClass) (c : ByteClass) :
    (intern classes c).1[(intern classes c).2]? = some c := by
  unfold intern
  split
  · next id hid =>
    rw [Array.idxOf?_eq_map_finIdxOf?_val] at hid
    obtain ⟨i, hi, rfl⟩ := Option.map_eq_some_iff.mp hid
    obtain ⟨hc, -⟩ := Array.finIdxOf?_eq_some_iff.mp hi
    exact (Array.getElem?_eq_getElem i.isLt).trans (congrArg some hc)
  · exact Array.getElem?_push_size

/-! ## Slots -/

/-- Whatever lies in the slot of a node realizes the expression below the node. -/
def Workshop.Sound (nodes : Array Node) (w : Workshop) : Prop :=
  ∀ id f, w.slots[id]? = some (some f) → ∃ e, Tree.Unfolds nodes id e ∧ f.Realizes w.classes e

section Slot

variable {cfg : Settings} {nodes : Array Node} {w w' : Workshop} {classes : Array ByteClass}
variable {slots slots' : Array (Option Fragment)} {child : Option Nat} {parent : Token}
variable {id : Nat} {f : Fragment} {e : Expr} {node : Node}

theorem Workshop.Sound.put (hw : w.Sound nodes) (he : Tree.Unfolds nodes id e)
    (hf : f.Realizes w.classes e) :
    Workshop.Sound nodes ⟨w.classes, w.slots.setIfInBounds id (some f)⟩ := by
  intro i g hg
  rw [Array.getElem?_setIfInBounds] at hg
  split at hg
  · next hi =>
    split at hg
    · obtain rfl := Option.some.inj (Option.some.inj hg)
      exact ⟨e, hi ▸ he, hf⟩
    · cases hg
  · exact hw i g hg

theorem take_ok (hw : Workshop.Sound nodes ⟨classes, slots⟩)
    (h : take slots child parent = .ok (f, slots')) :
    ∃ c e, child = some c ∧ Tree.Unfolds nodes c e ∧ f.Realizes classes e ∧
      Workshop.Sound nodes ⟨classes, slots'⟩ := by
  unfold take at h
  split at h
  · next g hg =>
    obtain ⟨rfl, rfl⟩ := Prod.mk.inj (Except.ok.inj h)
    obtain ⟨c, rfl, hc⟩ := Option.bind_eq_some_iff.mp hg
    have hslot : slots[c]? = some (some g) := Option.join_eq_some_iff.mp hc
    obtain ⟨e, he, hge⟩ := hw c g hslot
    refine ⟨c, e, rfl, he, hge, fun i k hk => hw i k ?_⟩
    -- the other slots are as before
    rw [Array.getElem?_setIfInBounds] at hk
    split at hk
    · split at hk <;> cases hk
    · exact hk
  · cases h

/-- What a node with one operand does: take the operand and apply an operation that realizes what
the node stands for. -/
theorem unary_ok {op : Fragment → Fragment} {mk : Expr → Expr}
    (hw : Workshop.Sound nodes ⟨classes, slots⟩)
    (hop : ∀ {g e}, g.Realizes classes e → (op g).Realizes classes (mk e))
    (hmk : ∀ {c e}, child = some c → Tree.Unfolds nodes c e → Tree.Unfolds nodes id (mk e))
    (h : (do let (g, slots) ← take slots child parent
             return (op g, (⟨classes, slots⟩ : Workshop))) = .ok (f, w')) :
    w'.Sound nodes ∧ ∃ e, Tree.Unfolds nodes id e ∧ f.Realizes w'.classes e := by
  obtain ⟨⟨g, slots'⟩, ht, h⟩ := bind_eq_ok h
  obtain ⟨rfl, rfl⟩ := Prod.mk.inj (Except.ok.inj h)
  obtain ⟨c, e, hc, he, hg, hw'⟩ := take_ok hw ht
  exact ⟨hw', _, hmk hc he, hop hg⟩

theorem binary_ok {op : Fragment → Fragment → Fragment} {mk : Expr → Expr → Expr}
    {left right : Option Nat} (hw : Workshop.Sound nodes ⟨classes, slots⟩)
    (hop : ∀ {l r a b}, l.Realizes classes a → r.Realizes classes b →
      (op l r).Realizes classes (mk a b))
    (hmk : ∀ {i j a b}, left = some i → right = some j → Tree.Unfolds nodes i a →
      Tree.Unfolds nodes j b → Tree.Unfolds nodes id (mk a b))
    (h : (do let (l, slots) ← take slots left parent
             let (r, slots) ← take slots right parent
             return (op l r, (⟨classes, slots⟩ : Workshop))) = .ok (f, w')) :
    w'.Sound nodes ∧ ∃ e, Tree.Unfolds nodes id e ∧ f.Realizes w'.classes e := by
  obtain ⟨⟨l, slots₁⟩, hl, h⟩ := bind_eq_ok h
  obtain ⟨⟨r, slots₂⟩, hr, h⟩ := bind_eq_ok h
  obtain ⟨rfl, rfl⟩ := Prod.mk.inj (Except.ok.inj h)
  obtain ⟨i, a, hi, ha, hla, hw₁⟩ := take_ok hw hl
  obtain ⟨j, b, hj, hb, hrb, hw₂⟩ := take_ok hw₁ hr
  exact ⟨hw₂, _, hmk hi hj ha hb, hop hla hrb⟩

/-- **The fragment of a node realizes the expression below the node.** -/
theorem compileNode_ok (hw : w.Sound nodes) (hn : nodes[id]? = some node)
    (h : compileNode cfg w node = .ok (f, w')) :
    w'.Sound nodes ∧ ∃ e, Tree.Unfolds nodes id e ∧ f.Realizes w'.classes e := by
  obtain ⟨classes, slots⟩ := w
  obtain ⟨token, left, right⟩ := node
  cases token with
  | byte b =>
    obtain ⟨rfl, rfl⟩ := Prod.mk.inj (Except.ok.inj h)
    exact ⟨hw, _, .letter hn rfl, .leaf rfl⟩
  | wildcard c =>
    obtain ⟨rfl, rfl⟩ := Prod.mk.inj (Except.ok.inj h)
    exact ⟨hw, _, .letter hn rfl, .leaf rfl⟩
  | anchor a =>
    obtain ⟨rfl, rfl⟩ := Prod.mk.inj (Except.ok.inj h)
    exact ⟨hw, _, .letter hn rfl, .leaf rfl⟩
  | byteClass c =>
    obtain ⟨rfl, rfl⟩ := Prod.mk.inj (Except.ok.inj h)
    refine ⟨?_, _, .letter hn rfl, .leaf ?_⟩
    · -- the pool may have grown under the fragments that are already there
      intro i g hg
      obtain ⟨e, he, hge⟩ := hw i g hg
      exact ⟨e, he, hge.extend intern_extends⟩
    · exact congrArg (Option.map Letter.byteClass) (getElem?_intern classes c)
  | op o =>
    cases o with
    | plus => exact unary_ok hw .plus (by rintro _ _ rfl he; exact .plus hn he) h
    | star => exact unary_ok hw .star (by rintro _ _ rfl he; exact .star hn he) h
    | opt => exact unary_ok hw .opt (by rintro _ _ rfl he; exact .opt hn he) h
    | concat =>
      exact binary_ok hw .concat (by rintro _ _ _ _ rfl rfl ha hb; exact .concat hn ha hb) h
    | alternation =>
      exact binary_ok hw (.alternate _)
        (by rintro _ _ _ _ rfl rfl ha hb; exact .alternation hn (.inl rfl) ha hb) h
    | bracketAlternation =>
      exact binary_ok hw (.alternate _)
        (by rintro _ _ _ _ rfl rfl ha hb; exact .alternation hn (.inr rfl) ha hb) h
  | count min max =>
    -- unlike the others, this operation can fail
    obtain ⟨⟨g, slots'⟩, ht, h⟩ := bind_eq_ok h
    obtain ⟨k, hk, h⟩ := bind_eq_ok h
    obtain ⟨rfl, rfl⟩ := Prod.mk.inj (Except.ok.inj h)
    obtain ⟨c, e, rfl, he, hge, hw'⟩ := take_ok hw ht
    exact ⟨hw', _, .count hn he, realizes_repeated hge hk⟩
  | openGroup => cases h
  | closeGroup => cases h

theorem compileAt_ok (hw : w.Sound nodes) (h : compileAt cfg nodes w id = .ok w') :
    w'.Sound nodes := by
  unfold compileAt at h
  split at h
  · obtain rfl := Except.ok.inj h
    exact hw
  · next node hn =>
    obtain ⟨⟨f, w₁⟩, hf, h⟩ := bind_eq_ok h
    obtain ⟨g, hg, hw'⟩ := bind_eq_ok h
    obtain rfl := eq_of_withinBudget hg
    obtain rfl := Except.ok.inj hw'
    obtain ⟨hw₁, e, he, hge⟩ := compileNode_ok hw hn hf
    exact hw₁.put he hge

/-- **Soundness of the slots is kept, in whichever order nodes are compiled.** -/
theorem foldlM_compileAt_ok {ids : List Nat} (hw : w.Sound nodes)
    (h : ids.foldlM (compileAt cfg nodes) w = .ok w') : w'.Sound nodes :=
  foldlM_invariant compileAt_ok hw h

theorem Workshop.sound_start (t : Tree) : (Workshop.start t).Sound nodes := by
  intro id f hf
  rw [show (Workshop.start t).slots = Array.replicate t.size none from rfl,
    Array.getElem?_replicate] at hf
  split at hf <;> cases hf

end Slot

end Thompson

/-! ## Trees -/

open Thompson

variable {cfg : Settings} {t : Tree} {nfa : Nfa}

/-- **The fragment of a tree realizes the expression that the tree stands for.** -/
theorem Nfa.realizes_ofTree (hroot : ∀ r ∈ t.root, r < t.size) (h : Nfa.ofTree cfg t = .ok nfa) :
    ∃ e, t.Denotes e ∧ nfa.fragment.Realizes nfa.classes e := by
  unfold Nfa.ofTree at h
  unfold Tree.Denotes
  cases hr : t.root with
  | none =>
    rw [hr] at h
    obtain rfl := Except.ok.inj h
    exact ⟨.empty, rfl, .empty⟩
  | some root =>
    simp only [hr] at h ⊢
    obtain ⟨w, hw, h⟩ := bind_eq_ok h
    have hsound := foldlM_compileAt_ok (Workshop.sound_start t) hw
    rw [Array.getElem?_eq_getElem (hroot root hr)] at h
    obtain ⟨⟨f, slots⟩, hf, h⟩ := bind_eq_ok h
    obtain rfl := Except.ok.inj h
    obtain ⟨c, e, hc, he, hfe, -⟩ := take_ok hsound hf
    obtain rfl := Option.some.inj hc
    exact ⟨e, he, hfe⟩

/-- **The words of the fragment of a tree, read through the pool, are the language of the
tree.** -/
theorem Nfa.language_ofTree (hroot : ∀ r ∈ t.root, r < t.size) (h : Nfa.ofTree cfg t = .ok nfa) :
    (∃! e, t.Denotes e) ∧ ∀ e, t.Denotes e →
      nfa.fragment.language.map (Label.letter? nfa.classes) = e.language.map some := by
  obtain ⟨e, he, hr⟩ := Nfa.realizes_ofTree hroot h
  exact ⟨⟨e, he, fun _ he' => he'.unique he⟩, fun _ he' => he'.unique he ▸ hr.language⟩

/-- The tree of `a|b`. -/
theorem Nfa.language_ofTree_alternation :
    ∃ t : Tree, t = ⟨#[⟨.byte 0x61, none, none⟩, ⟨.byte 0x62, none, none⟩,
        ⟨.op .alternation, some 0, some 1⟩], some 2⟩ ∧
      ∃ nfa, Nfa.ofTree {} t = .ok nfa ∧ nfa.fragment.language.map (Label.letter? nfa.classes) =
        (Expr.alternation (.letter (.byte 0x61)) (.letter (.byte 0x62))).language.map some := by
  have h : Nfa.ofTree {} ⟨#[⟨.byte 0x61, none, none⟩, ⟨.byte 0x62, none, none⟩,
      ⟨.op .alternation, some 0, some 1⟩], some 2⟩ =
      .ok ⟨⟨0, 1, #[[⟨1, .byte 0x61⟩, ⟨1, .byte 0x62⟩], []]⟩, #[]⟩ := rfl
  exact ⟨_, rfl, _, h, (Nfa.language_ofTree (by decide) h).2 _
    (.alternation rfl (.inl rfl) (.letter rfl rfl) (.letter rfl rfl))⟩

end ByteRegex
