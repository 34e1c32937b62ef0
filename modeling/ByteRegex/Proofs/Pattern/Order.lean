import ByteRegex.Proofs.Basic
import ByteRegex.Proofs.Pattern.Grammar
import Mathlib.Data.List.TakeWhile

/-!
# Where the tokens of a phrase are placed

`Token.place` reads a phrase without looking at what waits below it or what follows it. After a
phrase, some of its tokens have been placed and some of its operators still wait, and together they
are the tokens of its tree, each after its operands (`Derives.placed`). So the tokens of a whole
pattern are reordered to those of its tree (`Derives.reorder_eq`).

For streams that need not be phrases, `Token.place` yields something exactly if the group marks
match (`Token.place_ok_iff`), and then loses and duplicates nothing (`Token.perm_of_place`).
-/

namespace ByteRegex

/-! ## One token -/

namespace Token

variable {t : Token} {o : Operator} {ts out : List Token} {stack pending below : List Waiting}

theorem place_inPlace (ht : t.role = .operand ∨ t.role = .unary) :
    place stack (t :: ts) = (place stack ts).map (t :: ·) := by
  cases t with
  | op o =>
    cases o <;> first | rfl | simp [role, Operator.isBinary] at ht
  | openGroup => simp [role] at ht
  | closeGroup => simp [role] at ht
  | _ => rfl

/-- What binds tighter than a binary operator is placed before it waits. -/
theorem place_operator (ho : (op o).role = .binary)
    (hp : ∀ w ∈ pending, w.bindsTighterThan o = true)
    (hb : ∀ w ∈ below.head?, w.bindsTighterThan o = false) :
    place (pending ++ below) (op o :: ts) =
      (place (.operator o :: below) ts).map (pending.flatMap Waiting.tokens ++ ·) := by
  have hbelow : below.takeWhile (Waiting.bindsTighterThan o) = [] ∧
      below.dropWhile (Waiting.bindsTighterThan o) = below := by
    cases below with
    | nil => exact ⟨rfl, rfl⟩
    | cons w below =>
      have hw := hb w rfl
      simp [hw]
  have hbinary : o.isBinary = true := by
    cases o <;> first | rfl | cases ho
  simp only [place, hbinary, if_true]
  rw [List.takeWhile_append_of_pos hp, List.dropWhile_append_of_pos hp, hbelow.1, hbelow.2,
    List.append_nil]

/-- The operators of a group are placed when it closes. -/
theorem place_closeGroup (hp : ∀ w ∈ pending, w.isOperator = true) :
    place (pending ++ .group :: below) (closeGroup :: ts) =
      (place below ts).map (pending.flatMap Waiting.tokens ++ ·) := by
  simp only [place]
  rw [List.dropWhile_append_of_pos hp, List.takeWhile_append_of_pos hp]
  simp [Waiting.isOperator]

/-- A group that was not opened cannot close. -/
theorem place_closeGroup_eq_error (hp : ∀ w ∈ stack, w.isOperator = true) :
    place stack (closeGroup :: ts) = .error .unbalancedParenthesis := by
  simp only [place]
  rw [List.dropWhile_eq_nil_iff.mpr hp]

theorem map_map_append (x : Except SyntaxError (List Token)) (us vs : List Token) :
    (x.map (vs ++ ·)).map (us ++ ·) = x.map (us ++ vs ++ ·) := by
  cases x with
  | error e => rfl
  | ok ts => exact congrArg Except.ok (List.append_assoc us vs ts).symm

end Token

/-! ## Phrases -/

/-- What may still wait after a phrase has been read. -/
def Phrase.Leaves : Phrase → Waiting → Prop
  | alternatives, w => w.isOperator = true
  | sequence, w => w = .operator .concat
  | repetition, _ | primary, _ => False

/-- What may wait on top when a phrase begins: nothing that binds tighter than its operators. -/
def Phrase.Follows : Phrase → List Waiting → Prop
  | alternatives, stack => ∀ w ∈ stack.head?, w.bindsTighterThan .alternation = false
  | sequence, stack => ∀ w ∈ stack.head?, w.bindsTighterThan .concat = false
  | repetition, _ | primary, _ => True

theorem Operator.IsAlternation.bindsTighterThan_eq {o : Operator} (ho : o.IsAlternation) :
    Waiting.bindsTighterThan o = Waiting.bindsTighterThan .alternation := by
  rcases ho with rfl | rfl <;> rfl

/-- What is looser than concatenations where alternatives may begin, may be so for a sequence. -/
theorem Phrase.Follows.sequence {stack : List Waiting} (h : alternatives.Follows stack) :
    Phrase.sequence.Follows stack := by
  intro w hw
  have hloose := h w hw
  cases w with
  | group => rfl
  | operator o => cases o <;> first | rfl | exact hloose

/-- Reading a phrase places some tokens of its tree and leaves the others waiting. -/
def Placed (p : Phrase) (ts : List Token) (s : TokenTree) : Prop :=
  ∃ out pending, out ++ pending.flatMap Waiting.tokens = s.ordered ∧ (∀ w ∈ pending, p.Leaves w) ∧
    ∀ stack rest, p.Follows stack →
      Token.place stack (ts ++ rest) = (Token.place (pending ++ stack) rest).map (out ++ ·)

namespace Placed

variable {p : Phrase} {ts us : List Token} {s a b : TokenTree} {t : Token} {o : Operator}

/-- A repetition leaves nothing waiting. -/
theorem place_eq (h : Placed .repetition ts s) (stack : List Waiting) (rest : List Token) :
    Token.place stack (ts ++ rest) = (Token.place stack rest).map (s.ordered ++ ·) := by
  obtain ⟨out, pending, hs, hp, hplace⟩ := h
  have hnil : pending = [] := List.eq_nil_iff_forall_not_mem.mpr fun w hw => hp w hw
  subst hnil
  rw [hplace stack rest trivial, ← hs, List.flatMap_nil, List.append_nil, List.nil_append]

theorem atom (ht : t.role = .operand) : Placed .primary [t] (.leaf t ht) := by
  refine ⟨[t], [], rfl, by simp, ?_⟩
  intro stack rest _
  exact Token.place_inPlace (.inl ht)

theorem group (h : Placed .alternatives ts s) :
    Placed .primary (.openGroup :: ts ++ [.closeGroup]) s := by
  obtain ⟨out, pending, hs, hp, hplace⟩ := h
  refine ⟨s.ordered, [], by simp, by simp, ?_⟩
  intro stack rest _
  have hgroup : Phrase.alternatives.Follows (.group :: stack) := by
    intro w hw
    cases hw
    rfl
  show Token.place (.group :: stack) (ts ++ [.closeGroup] ++ rest) = _
  rw [List.append_assoc, hplace _ _ hgroup, List.singleton_append, Token.place_closeGroup hp,
    Token.map_map_append, hs, List.nil_append]

theorem unary (ht : t.role = .unary) (h : Placed .repetition ts s) :
    Placed .repetition (ts ++ [t]) (.unary t ht s) := by
  refine ⟨s.ordered ++ [t], [], by simp [TokenTree.ordered], by simp, ?_⟩
  intro stack rest _
  rw [List.append_assoc, h.place_eq, List.singleton_append, Token.place_inPlace (.inr ht)]
  exact Token.map_map_append _ _ [t]

theorem concat (ha : Placed .repetition ts a) (hb : Placed .sequence us b) :
    Placed .sequence (ts ++ .op .concat :: us) (.binary (.op .concat) rfl a b) := by
  obtain ⟨out, pending, hs, hp, hplace⟩ := hb
  refine ⟨a.ordered ++ out, pending ++ [.operator .concat], ?_, ?_, ?_⟩
  · simp [TokenTree.ordered, Waiting.tokens, ← hs]
  · intro w hw
    rcases List.mem_append.mp hw with hw | hw
    · exact hp w hw
    · exact List.mem_singleton.mp hw
  · intro stack rest hstack
    have hconcat : Token.place ([] ++ stack) (.op .concat :: (us ++ rest)) = _ :=
      Token.place_operator rfl (List.forall_mem_nil _) hstack
    have hfollows : Phrase.sequence.Follows (.operator .concat :: stack) := by
      intro w hw
      cases hw
      rfl
    rw [List.append_assoc, ha.place_eq, List.cons_append, ← List.nil_append stack, hconcat,
      hplace _ _ hfollows, Token.map_map_append, Token.map_map_append, List.append_assoc pending,
      List.flatMap_nil, List.append_nil, List.singleton_append, List.nil_append]

theorem alternation (ho : o.IsAlternation) (ha : Placed .sequence ts a)
    (hb : Placed .alternatives us b) :
    Placed .alternatives (ts ++ .op o :: us) (.binary (.op o) ho.role a b) := by
  obtain ⟨out, pending, hs, hp, hplace⟩ := ha
  obtain ⟨out', pending', hs', hp', hplace'⟩ := hb
  refine ⟨out ++ pending.flatMap Waiting.tokens ++ out', pending' ++ [.operator o], ?_, ?_, ?_⟩
  · simp [TokenTree.ordered, Waiting.tokens, ← hs, ← hs']
  · intro w hw
    rcases List.mem_append.mp hw with hw | hw
    · exact hp' w hw
    · rw [List.mem_singleton.mp hw]
      rfl
  · intro stack rest hstack
    -- the concatenations of the first sequence are all that binds tighter
    have htighter : ∀ w ∈ pending, w.bindsTighterThan o = true := by
      intro w hw
      rw [hp w hw, ho.bindsTighterThan_eq]
      rfl
    have hlooser : ∀ w ∈ stack.head?, w.bindsTighterThan o = false := by
      rw [ho.bindsTighterThan_eq]
      exact hstack
    have hfollows : Phrase.alternatives.Follows (.operator o :: stack) := by
      intro w hw
      cases hw
      rcases ho with rfl | rfl <;> rfl
    rw [List.append_assoc, hplace _ _ hstack.sequence, List.cons_append,
      Token.place_operator ho.role htighter hlooser, hplace' _ _ hfollows, Token.map_map_append,
      Token.map_map_append, List.append_assoc pending', List.singleton_append,
      List.append_assoc out]

end Placed

namespace Derives

variable {p : Phrase} {ts : List Token} {s : TokenTree}

/-- **A phrase is read alike whatever waits below it and whatever follows it.** -/
theorem placed (h : Derives p ts s) : Placed p ts s := by
  induction h with
  | atom ht => exact .atom ht
  | group _ ih => exact ih.group
  | primary _ ih => exact ih
  | unary ht _ ih => exact ih.unary ht
  | repetition _ ih =>
    refine ⟨_, [], List.append_nil _, by simp, ?_⟩
    intro stack rest _
    exact ih.place_eq stack rest
  | concat _ _ iha ihb => exact iha.concat ihb
  | sequence _ ih =>
    obtain ⟨out, pending, hs, hp, hplace⟩ := ih
    refine ⟨out, pending, hs, ?_, ?_⟩
    · intro w hw
      rw [hp w hw]
      rfl
    · intro stack rest hstack
      exact hplace stack rest hstack.sequence
  | alternation ho _ _ iha ihb => exact iha.alternation ho ihb

theorem reorder_eq (h : Derives .alternatives ts s) : Token.reorder ts = .ok s.ordered := by
  obtain ⟨out, pending, hs, hp, hplace⟩ := h.placed
  have hall : (pending ++ []).all Waiting.isOperator = true := by
    rw [List.append_nil, List.all_eq_true]
    exact hp
  have h := hplace [] [] (by simp [Phrase.Follows])
  rw [List.append_nil, Token.place, if_pos hall, List.append_nil] at h
  rw [Token.reorder, h, ← hs]
  rfl

end Derives

/-! ## Any stream -/

namespace Waiting

/-- The stack, split at the first that does not satisfy a test. -/
theorem exists_split (test : Waiting → Bool) (stack : List Waiting) :
    ∃ pending below, stack = pending ++ below ∧ (∀ w ∈ pending, test w = true) ∧
      ∀ w ∈ below.head?, test w = false := by
  refine ⟨stack.takeWhile test, stack.dropWhile test, List.takeWhile_append_dropWhile.symm, ?_, ?_⟩
  · intro w hw
    exact List.mem_takeWhile_imp hw
  · intro w hw
    have h := List.head?_dropWhile_not test stack
    rw [hw] at h
    exact h

theorem isOperator_of_bindsTighterThan {o : Operator} {w : Waiting}
    (h : w.bindsTighterThan o = true) : w.isOperator = true := by
  cases w with
  | group => exact h
  | operator _ => rfl

theorem count_group_eq_zero {pending : List Waiting} (hp : ∀ w ∈ pending, w.isOperator = true) :
    pending.count .group = 0 := by
  rw [List.count_eq_zero]
  intro hmem
  cases hp _ hmem

theorem count_group_append {pending below : List Waiting}
    (hp : ∀ w ∈ pending, w.isOperator = true) :
    (pending ++ below).count .group = below.count .group := by
  rw [List.count_append, count_group_eq_zero hp, Nat.zero_add]

end Waiting

namespace Token

variable {t : Token} {ts out : List Token} {stack : List Waiting} {opened : Nat}

/-- Whether every group that is opened is closed later on, and no other is closed, given the number
of groups that are open at the start. -/
def Closes : Nat → List Token → Prop
  | opened, [] => opened = 0
  | opened, openGroup :: ts => Closes (opened + 1) ts
  | opened, closeGroup :: ts => 0 < opened ∧ Closes (opened - 1) ts
  | opened, _ :: ts => Closes opened ts

theorem closes_cons (ht : t.role ≠ .groupMark) : Closes opened (t :: ts) ↔ Closes opened ts := by
  cases t with
  | openGroup => exact absurd rfl ht
  | closeGroup => exact absurd rfl ht
  | _ => exact Iff.rfl

theorem exists_operator_of_role (ht : t.role = .binary) : ∃ o, t = op o := by
  cases t with
  | op o => exact ⟨o, rfl⟩
  | _ => cases ht

theorem eq_mark_of_role (ht : t.role = .groupMark) : t = openGroup ∨ t = closeGroup := by
  cases t with
  | openGroup => exact .inl rfl
  | closeGroup => exact .inr rfl
  | op o => cases o <;> cases ht
  | _ => cases ht

/-- What one token places, and what waits after it. -/
structure Settles (stack : List Waiting) (t : Token) (now : List Token) (stack' : List Waiting) :
    Prop where
  place_eq : ∀ ts, place stack (t :: ts) = (place stack' ts).map (now ++ ·)
  perm : (now ++ stack'.flatMap Waiting.tokens).Perm
    (stack.flatMap Waiting.tokens ++ [t].filter (·.role ≠ .groupMark))
  closes : ∀ ts, Closes (stack.count .group) (t :: ts) ↔ Closes (stack'.count .group) ts

theorem settles_inPlace (ht : t.role = .operand ∨ t.role = .unary) :
    Settles stack t [t] stack where
  place_eq _ := place_inPlace ht
  perm := by
    have hmark : t.role ≠ .groupMark := by
      rcases ht with ht | ht <;> simp [ht]
    rw [List.filter_cons_of_pos (by simp [hmark])]
    exact List.perm_append_comm
  closes _ := closes_cons (by rcases ht with ht | ht <;> simp [ht])

theorem settles_operator {o : Operator} {pending below : List Waiting}
    (ho : (op o).role = .binary) (hp : ∀ w ∈ pending, w.bindsTighterThan o = true)
    (hb : ∀ w ∈ below.head?, w.bindsTighterThan o = false) :
    Settles (pending ++ below) (op o) (pending.flatMap Waiting.tokens)
      (.operator o :: below) where
  place_eq _ := place_operator ho hp hb
  perm := by
    rw [List.filter_cons_of_pos (by simp [ho]), List.flatMap_append, List.append_assoc]
    refine List.Perm.append_left _ ?_
    show ([op o] ++ below.flatMap Waiting.tokens).Perm _
    exact List.perm_append_comm
  closes ts := by
    have hop : ∀ w ∈ pending, w.isOperator = true := by
      intro w hw
      exact Waiting.isOperator_of_bindsTighterThan (hp w hw)
    rw [closes_cons (by simp [ho]), Waiting.count_group_append hop, List.count_cons_of_ne (by simp)]

theorem settles_openGroup : Settles stack openGroup [] (.group :: stack) where
  place_eq ts := by
    rw [place]
    cases place (.group :: stack) ts <;> rfl
  perm := by simp [role, Waiting.tokens]
  closes ts := by rw [List.count_cons_self, Closes]

theorem settles_closeGroup {pending below : List Waiting}
    (hp : ∀ w ∈ pending, w.isOperator = true) :
    Settles (pending ++ .group :: below) closeGroup (pending.flatMap Waiting.tokens) below where
  place_eq _ := place_closeGroup hp
  perm := by simp [role, Waiting.tokens]
  closes ts := by
    rw [Waiting.count_group_append hp, List.count_cons_self, Closes, Nat.add_sub_cancel]
    exact and_iff_right (Nat.succ_pos _)

/-- A token can be settled unless it closes a group that was not opened. -/
theorem exists_settles (stack : List Waiting) (t : Token) :
    (∃ now stack', Settles stack t now stack') ∨
      t = closeGroup ∧ stack.count .group = 0 ∧
        ∀ ts, place stack (t :: ts) = .error .unbalancedParenthesis := by
  cases hrole : t.role with
  | operand => exact .inl ⟨_, _, settles_inPlace (.inl hrole)⟩
  | unary => exact .inl ⟨_, _, settles_inPlace (.inr hrole)⟩
  | binary =>
    obtain ⟨o, rfl⟩ := exists_operator_of_role hrole
    obtain ⟨pending, below, rfl, hp, hb⟩ := Waiting.exists_split (Waiting.bindsTighterThan o) stack
    exact .inl ⟨_, _, settles_operator hrole hp hb⟩
  | groupMark =>
    rcases eq_mark_of_role hrole with rfl | rfl
    · exact .inl ⟨_, _, settles_openGroup⟩
    · obtain ⟨pending, below, rfl, hp, hb⟩ := Waiting.exists_split Waiting.isOperator stack
      cases below with
      | nil =>
        rw [List.append_nil]
        exact .inr ⟨rfl, Waiting.count_group_eq_zero hp, fun _ => place_closeGroup_eq_error hp⟩
      | cons w below =>
        have hw := hb w rfl
        cases w with
        | group => exact .inl ⟨_, _, settles_closeGroup hp⟩
        | operator _ => cases hw

/-- **The tokens of a stream can be placed exactly if its groups close.** -/
theorem place_isOk_iff :
    (∃ out, place stack ts = .ok out) ↔ Closes (stack.count .group) ts := by
  induction ts generalizing stack with
  | nil =>
    rw [place, Closes, List.count_eq_zero]
    constructor
    · rintro ⟨out, h⟩ hmem
      split at h
      · next hall => cases List.all_eq_true.mp hall _ hmem
      · cases h
    · intro hmem
      refine ⟨_, if_pos (List.all_eq_true.mpr ?_)⟩
      intro w hw
      cases w with
      | group => exact absurd hw hmem
      | operator _ => rfl
  | cons t ts ih =>
    rcases exists_settles stack t with ⟨now, stack', hs⟩ | ⟨rfl, hzero, herror⟩
    · rw [hs.place_eq, hs.closes, ← ih]
      constructor
      · rintro ⟨out, h⟩
        obtain ⟨later, hlater, -⟩ := map_eq_ok h
        exact ⟨later, hlater⟩
      · rintro ⟨later, hlater⟩
        exact ⟨now ++ later, by rw [hlater]; rfl⟩
    · rw [herror, hzero, Closes]
      simp

/-- **Placing loses and duplicates nothing**: what comes out is what waited and what was read,
without the group marks. -/
theorem perm_of_place (h : place stack ts = .ok out) :
    out.Perm (stack.flatMap Waiting.tokens ++ ts.filter (·.role ≠ .groupMark)) := by
  induction ts generalizing stack out with
  | nil =>
    rw [place] at h
    split at h
    · rw [List.filter_nil, List.append_nil, Except.ok.inj h]
    · cases h
  | cons t ts ih =>
    rcases exists_settles stack t with ⟨now, stack', hs⟩ | ⟨-, -, herror⟩
    · rw [hs.place_eq] at h
      obtain ⟨later, hlater, rfl⟩ := map_eq_ok h
      have hsplit : (t :: ts).filter (·.role ≠ .groupMark) =
          [t].filter (·.role ≠ .groupMark) ++ ts.filter (·.role ≠ .groupMark) :=
        List.filter_append [t] ts
      rw [hsplit, ← List.append_assoc]
      refine ((ih hlater).append_left now).trans ?_
      rw [← List.append_assoc]
      exact hs.perm.append_right _
    · rw [herror] at h
      cases h

end Token

end ByteRegex
