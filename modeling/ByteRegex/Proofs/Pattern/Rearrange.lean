import ByteRegex.Proofs.Pattern.Failure

/-!
# Which token reordering puts before which

`Token.reorder` permutes the tokens other than group marks. A token may stand in a stream many
times, so the permutation is one of places (`Token.Rearranges`): a token that is no binary operator
comes before all that are written after it, and what is written in a group comes before all that is
written behind the group. No grammar is assumed of the stream.

An operator that waits was written where no more groups were open than at any place since
(`Token.Waits`): if one of its groups had closed, it would have been placed. Each token keeps this
(`Token.Waits.exists_settlesAt`), and so what is placed now may precede all that is placed later
(`Token.exists_order_of_place`).

Main statement: `Token.reorder_rearranges`.
-/

namespace ByteRegex.Token

variable {ts us : List Token} {t : Token} {i j k n p q : Nat}

/-! ## Groups -/

/-- How many more groups a stream opens than it closes. -/
def surplus (ts : List Token) : Int := ts.count openGroup - ts.count closeGroup

/-- How many groups are open before a place. -/
def depth (ts : List Token) (i : Nat) : Int := surplus (ts.take i)

/-- The marks of one group stand at two places: what is between them closes its own groups. -/
structure IsGroup (ts : List Token) (p q : Nat) : Prop where
  opens : ts[p]? = some openGroup
  closes : ts[q]? = some closeGroup
  lt : p < q
  between : Closes 0 ((ts.take q).drop (p + 1))

theorem surplus_append : surplus (ts ++ us) = surplus ts + surplus us := by
  unfold surplus
  push_cast [List.count_append]
  omega

theorem depth_succ (ht : ts[i]? = some t) : depth ts (i + 1) = depth ts i + surplus [t] := by
  rw [depth, List.take_add_one, surplus_append, ht]
  rfl

theorem depth_eq_add (h : p ≤ i) : depth ts i = depth ts p + surplus ((ts.take i).drop p) := by
  have hsplit := List.take_append_drop p (ts.take i)
  rw [List.take_take, Nat.min_eq_left h] at hsplit
  rw [depth, ← hsplit, surplus_append, depth, hsplit]

/-- Behind a group fewer groups are open than within it. -/
theorem IsGroup.depth_lt (h : IsGroup ts p q) (hp : p < i) (hq : i < q) :
    depth ts (q + 1) < depth ts i := by
  obtain ⟨hprefixes, htotal⟩ := closes_iff.mp h.between
  have hprefix : (ts.take i).drop (p + 1) <+: (ts.take q).drop (p + 1) :=
    (List.take_prefix_take_left (Nat.le_of_lt hq)).drop _
  have hwithin : 0 ≤ surplus ((ts.take i).drop (p + 1)) := by
    have := hprefixes _ hprefix
    unfold surplus
    omega
  have hwhole : surplus ((ts.take q).drop (p + 1)) = 0 := by
    unfold surplus
    omega
  calc depth ts (q + 1)
    _ = depth ts q + surplus [closeGroup] := depth_succ h.closes
    _ < depth ts q := add_lt_of_neg_right _ (by decide)
    _ = depth ts (p + 1) := by rw [depth_eq_add h.lt, hwhole, Int.add_zero]
    _ ≤ depth ts (p + 1) + surplus ((ts.take i).drop (p + 1)) := Int.le_add_of_nonneg_right hwithin
    _ = depth ts i := (depth_eq_add hp).symm

/-! ## Places -/

/-- Whether the token at a place is no group mark. -/
def isProper (ts : List Token) (i : Nat) : Bool := ts[i]?.any (·.role ≠ .groupMark)

/-- Whether the token at a place is neither a group mark nor a binary operator. -/
def StaysInPlace (ts : List Token) (i : Nat) : Prop :=
  ∃ t, ts[i]? = some t ∧ (t.role = .operand ∨ t.role = .unary)

/-- An order of all places of a stream but those of group marks, in which operands keep their order
and groups their extent. -/
structure Rearranges (ts : List Token) (order : List Nat) : Prop where
  perm : order.Perm ((List.range ts.length).filter (isProper ts))
  /-- A token that is no binary operator comes before all that are written after it. So the tokens
  of this kind keep their order, and a binary operator comes after those that precede it. -/
  inPlace : ∀ i ∈ order, ∀ j ∈ order, i < j → StaysInPlace ts i → order.idxOf i < order.idxOf j
  /-- What is written in a group comes before all that is written behind the group. -/
  group : ∀ p q, IsGroup ts p q → ∀ i ∈ order, ∀ j ∈ order, p < i → i < q → q < j →
    order.idxOf i < order.idxOf j

/-- Whether the token of the first place may be put before that of the second. If it is written
later, the other is a binary operator, none of whose groups has closed in between. -/
structure MayPrecede (ts : List Token) (i j : Nat) : Prop where
  inPlace : StaysInPlace ts j → i < j
  depth_le : ∀ k, j < k → k ≤ i → depth ts j ≤ depth ts k

theorem mayPrecede_of_lt (h : i < j) : MayPrecede ts i j :=
  ⟨fun _ => h, fun _ hj hi => absurd (Nat.lt_trans h (Nat.lt_of_lt_of_le hj hi)) (Nat.lt_irrefl i)⟩

/-! ## What waits -/

/-- What waits before a place, and where it was written. None of the groups in which an operator was
written has closed since, and those that are open below it are still open. -/
inductive Waits (ts : List Token) (n : Nat) : List Waiting → List Nat → Prop where
  | nil : Waits ts n [] []
  | group {stack : List Waiting} {ws : List Nat} :
    Waits ts n stack ws → Waits ts n (.group :: stack) ws
  | operator {o : Operator} {i : Nat} {stack : List Waiting} {ws : List Nat} :
    ts[i]? = some (op o) → (op o).role = .binary → i < n →
    (∀ k, i < k → k ≤ n → depth ts i ≤ depth ts k) → depth ts i ≤ stack.count .group →
    Waits ts n stack ws → Waits ts n (.operator o :: stack) (i :: ws)

namespace Waits

variable {stack pending below : List Waiting} {ws : List Nat}

theorem tokens_eq (h : Waits ts n stack ws) :
    (stack.flatMap Waiting.tokens).map some = ws.map (ts[·]?) := by
  induction h with
  | nil => rfl
  | group _ ih => exact ih
  | operator ht _ _ _ _ _ ih =>
    rw [List.map_cons, ht, ← ih]
    rfl

theorem lt (h : Waits ts n stack ws) : ∀ i ∈ ws, i < n := by
  induction h with
  | nil => exact List.forall_mem_nil _
  | group _ ih => exact ih
  | operator _ _ hlt _ _ _ ih => exact List.forall_mem_cons.mpr ⟨hlt, ih⟩

/-- What waits may come after anything written so far. -/
theorem mayPrecede (h : Waits ts n stack ws) (hi : i ≤ n) : ∀ j ∈ ws, MayPrecede ts i j := by
  induction h with
  | nil => exact List.forall_mem_nil _
  | group _ ih => exact ih
  | operator ht hbinary _ hdepth _ _ ih =>
    refine List.forall_mem_cons.mpr ⟨⟨?_, fun k hk hki => hdepth k hk (Nat.le_trans hki hi)⟩, ih⟩
    rintro ⟨t, ht', hrole⟩
    obtain rfl := Option.some.inj (ht.symm.trans ht')
    rw [hbinary] at hrole
    rcases hrole with hrole | hrole <;> cases hrole

theorem pairwise (h : Waits ts n stack ws) : ws.Pairwise (MayPrecede ts) :=
  List.pairwise_of_forall_mem_list fun i hi j hj => h.mayPrecede (Nat.le_of_lt (h.lt i hi)) j hj

/-- What waits goes on waiting while its groups are open. -/
theorem succ (h : Waits ts n stack ws) (hopen : (stack.count .group : Int) ≤ depth ts (n + 1)) :
    Waits ts (n + 1) stack ws := by
  induction h with
  | nil => exact .nil
  | group _ ih =>
    rw [List.count_cons_self] at hopen
    exact .group (ih (by omega))
  | operator ht hbinary hlt hdepth hbelow _ ih =>
    rw [List.count_cons_of_ne (by simp)] at hopen
    refine .operator ht hbinary (Nat.lt_succ_of_lt hlt) (fun k hk hkn => ?_) hbelow (ih hopen)
    rcases Nat.le_succ_iff.mp hkn with hkn | rfl
    · exact hdepth k hk hkn
    · exact Int.le_trans hbelow hopen

theorem append (h : Waits ts n (pending ++ below) ws) :
    ∃ us vs, ws = us ++ vs ∧ Waits ts n below vs ∧
      (pending.flatMap Waiting.tokens).map some = us.map (ts[·]?) := by
  induction pending generalizing ws with
  | nil => exact ⟨[], ws, rfl, h, rfl⟩
  | cons w pending ih =>
    cases h with
    | group h => exact ih h
    | operator ht _ _ _ _ h =>
      obtain ⟨us, vs, rfl, hbelow, htokens⟩ := ih h
      refine ⟨_ :: us, vs, rfl, hbelow, ?_⟩
      rw [List.map_cons, ht, ← htokens]
      rfl

end Waits

/-! ## One token -/

/-- What the token at a place puts out, where that was written, and what waits afterwards. -/
structure SettlesAt (all : List Token) (n : Nat) (stack : List Waiting) (ws : List Nat) (t : Token)
    (now : List Token) (places : List Nat) (stack' : List Waiting) (ws' : List Nat) : Prop where
  place_eq : ∀ ts, place stack (t :: ts) = (place stack' ts).map (now ++ ·)
  tokens_eq : now.map some = places.map (all[·]?)
  perm : (places ++ ws').Perm (ws ++ [n].filter (isProper all))
  waits : Waits all (n + 1) stack' ws'
  count_eq : (stack'.count .group : Int) = depth all (n + 1)
  le : ∀ i ∈ places, i ≤ n
  pairwise : places.Pairwise (MayPrecede all)

variable {all out : List Token} {o : Operator} {stack pending below : List Waiting} {ws : List Nat}

theorem isProper_eq (ht : all[n]? = some t) : isProper all n = decide (t.role ≠ .groupMark) := by
  rw [isProper, ht, Option.any_some]

/-- As many groups are open behind a token as before it, unless it is a group mark. -/
theorem depth_succ_of_ne (ht : all[n]? = some t) (hmark : t.role ≠ .groupMark) :
    depth all (n + 1) = depth all n := by
  have hzero : surplus [t] = 0 := by
    cases t with
    | openGroup | closeGroup => exact absurd rfl hmark
    | _ => rfl
  rw [depth_succ ht, hzero, Int.add_zero]

theorem settlesAt_inPlace (hw : Waits all n stack ws)
    (hc : (stack.count .group : Int) = depth all n) (ht : all[n]? = some t) (hrole : t.role = .operand ∨ t.role = .unary) :
    SettlesAt all n stack ws t [t] [n] stack ws := by
  have hmark : t.role ≠ .groupMark := by
    rcases hrole with hrole | hrole <;> simp [hrole]
  have hc' : (stack.count .group : Int) = depth all (n + 1) :=
    hc.trans (depth_succ_of_ne ht hmark).symm
  refine ⟨fun _ => place_inPlace hrole, ?_, ?_, hw.succ (Int.le_of_eq hc'), hc', ?_, ?_⟩
  · rw [List.map_singleton, List.map_singleton, ht]
  · rw [List.filter_cons_of_pos (by simp [isProper_eq ht, hmark]), List.filter_nil]
    exact List.perm_append_comm
  · simp
  · exact List.pairwise_singleton ..

/-- What waits above is put out, and the operator waits instead. -/
theorem settlesAt_operator (hw : Waits all n (pending ++ below) ws)
    (hc : ((pending ++ below).count .group : Int) = depth all n) (ht : all[n]? = some (op o))
    (hrole : (op o).role = .binary) (hp : ∀ w ∈ pending, w.bindsTighterThan o = true)
    (hb : ∀ w ∈ below.head?, w.bindsTighterThan o = false) :
    ∃ us vs, SettlesAt all n (pending ++ below) ws (op o) (pending.flatMap Waiting.tokens) us
      (.operator o :: below) (n :: vs) := by
  obtain ⟨us, vs, rfl, hbelow, htokens⟩ := hw.append
  have hop : ∀ w ∈ pending, w.isOperator = true :=
    fun w hw => Waiting.isOperator_of_bindsTighterThan (hp w hw)
  have hdepth : depth all (n + 1) = depth all n := depth_succ_of_ne ht (by simp [hrole])
  rw [Waiting.count_group_append hop] at hc
  have hc' : (below.count .group : Int) = depth all (n + 1) := hc.trans hdepth.symm
  refine ⟨us, vs, fun _ => place_operator hrole hp hb, htokens, ?_, ?_, ?_, ?_, ?_⟩
  · rw [List.filter_cons_of_pos (by simp [isProper_eq ht, hrole]), List.filter_nil,
      List.append_assoc]
    have hcomm : ([n] ++ vs).Perm (vs ++ [n]) := List.perm_append_comm
    exact hcomm.append_left us
  · refine .operator ht hrole (Nat.lt_succ_self n) (fun k hk hkn => ?_) (Int.le_of_eq ?_)
      (hbelow.succ (Int.le_of_eq hc'))
    · obtain rfl := Nat.le_antisymm hkn hk
      exact Int.le_of_eq hdepth.symm
    · exact hc.symm
  · rw [List.count_cons_of_ne (by simp), hc']
  · exact fun i hi => Nat.le_of_lt (hw.lt i (List.mem_append_left vs hi))
  · exact (List.pairwise_append.mp hw.pairwise).1

theorem settlesAt_openGroup (hw : Waits all n stack ws)
    (hc : (stack.count .group : Int) = depth all n) (ht : all[n]? = some openGroup) :
    SettlesAt all n stack ws openGroup [] [] (.group :: stack) ws := by
  have hdepth : depth all (n + 1) = depth all n + 1 := depth_succ ht
  refine ⟨settles_openGroup.place_eq, rfl, ?_, .group (hw.succ (by omega)), ?_, by simp, .nil⟩
  · rw [List.filter_cons_of_neg (by simp [isProper_eq ht, role]), List.filter_nil, List.append_nil]
    exact .refl _
  · rw [List.count_cons_self, hdepth, ← hc]
    rfl

/-- The operators of the group are put out. -/
theorem settlesAt_closeGroup (hw : Waits all n (pending ++ .group :: below) ws)
    (hc : ((pending ++ .group :: below).count .group : Int) = depth all n)
    (ht : all[n]? = some closeGroup) (hp : ∀ w ∈ pending, w.isOperator = true) :
    ∃ us vs, SettlesAt all n (pending ++ .group :: below) ws closeGroup
      (pending.flatMap Waiting.tokens) us below vs := by
  obtain ⟨us, vs, rfl, hbelow, htokens⟩ := hw.append
  have hdepth : depth all (n + 1) = depth all n + -1 := depth_succ ht
  rw [Waiting.count_group_append hp, List.count_cons_self] at hc
  have hc' : (below.count .group : Int) = depth all (n + 1) := by omega
  cases hbelow with
  | group hbelow =>
    refine ⟨us, vs, fun _ => place_closeGroup hp, htokens, ?_, hbelow.succ (Int.le_of_eq hc'), hc',
      ?_, ?_⟩
    · rw [List.filter_cons_of_neg (by simp [isProper_eq ht, role]), List.filter_nil,
        List.append_nil]
    · exact fun i hi => Nat.le_of_lt (hw.lt i (List.mem_append_left vs hi))
    · exact (List.pairwise_append.mp hw.pairwise).1

/-- **Each token keeps the groups of what waits open**, unless it closes a group that was not
opened. -/
theorem Waits.exists_settlesAt (hw : Waits all n stack ws)
    (hc : (stack.count .group : Int) = depth all n) (ht : all[n]? = some t) :
    (∃ now places stack' ws', SettlesAt all n stack ws t now places stack' ws') ∨
      ∀ ts, place stack (t :: ts) = .error .unbalancedParenthesis := by
  cases hrole : t.role with
  | operand => exact .inl ⟨_, _, _, _, settlesAt_inPlace hw hc ht (.inl hrole)⟩
  | unary => exact .inl ⟨_, _, _, _, settlesAt_inPlace hw hc ht (.inr hrole)⟩
  | binary =>
    obtain ⟨o, rfl⟩ := exists_operator_of_role hrole
    obtain ⟨pending, below, rfl, hp, hb⟩ := Waiting.exists_split (Waiting.bindsTighterThan o) stack
    obtain ⟨us, vs, h⟩ := settlesAt_operator hw hc ht hrole hp hb
    exact .inl ⟨_, _, _, _, h⟩
  | groupMark =>
    rcases eq_mark_of_role hrole with rfl | rfl
    · exact .inl ⟨_, _, _, _, settlesAt_openGroup hw hc ht⟩
    · obtain ⟨pending, below, rfl, hp, hb⟩ := Waiting.exists_split Waiting.isOperator stack
      cases below with
      | nil =>
        rw [List.append_nil]
        exact .inr fun _ => place_closeGroup_eq_error hp
      | cons w below =>
        have hw' := hb w rfl
        cases w with
        | group =>
          obtain ⟨us, vs, h⟩ := settlesAt_closeGroup hw hc ht hp
          exact .inl ⟨_, _, _, _, h⟩
        | operator _ => cases hw'

/-! ## Streams -/

/-- What is placed of the rest of a stream is in an order in which all that comes first may. -/
theorem exists_order_of_place (h : place stack ts = .ok out) (hts : all.drop n = ts)
    (hw : Waits all n stack ws) (hc : (stack.count .group : Int) = depth all n) :
    ∃ order : List Nat, out.map some = order.map (all[·]?) ∧
      order.Perm (ws ++ (List.range' n ts.length).filter (isProper all)) ∧
      order.Pairwise (MayPrecede all) := by
  induction ts generalizing n stack ws out with
  | nil =>
    rw [place] at h
    split at h
    · obtain rfl := Except.ok.inj h
      exact ⟨ws, hw.tokens_eq, by simp, hw.pairwise⟩
    · cases h
  | cons t ts ih =>
    have ht : all[n]? = some t := by rw [← List.head?_drop, hts, List.head?_cons]
    have hrest : all.drop (n + 1) = ts := by rw [← List.tail_drop, hts, List.tail_cons]
    rcases hw.exists_settlesAt hc ht with ⟨now, places, stack', ws', hs⟩ | herror
    · rw [hs.place_eq] at h
      obtain ⟨later, hlater, rfl⟩ := map_eq_ok h
      obtain ⟨order, htokens, hperm, hpairwise⟩ := ih hlater hrest hs.waits hs.count_eq
      refine ⟨places ++ order, ?_, ?_, List.pairwise_append.mpr ⟨hs.pairwise, hpairwise, ?_⟩⟩
      · rw [List.map_append, List.map_append, hs.tokens_eq, htokens]
      · have hfilter : (List.range' n (t :: ts).length).filter (isProper all) =
            [n].filter (isProper all) ++ (List.range' (n + 1) ts.length).filter (isProper all) := by
          rw [List.length_cons, List.range'_succ, ← List.filter_append]
          rfl
        rw [hfilter, ← List.append_assoc]
        refine (hperm.append_left places).trans ?_
        rw [← List.append_assoc]
        exact hs.perm.append_right _
      · -- what is placed later waits now, or is written later
        intro i hi j hj
        have hin := hs.le i hi
        rcases List.mem_append.mp (hperm.mem_iff.mp hj) with hj | hj
        · exact hs.waits.mayPrecede (Nat.le_succ_of_le hin) j hj
        · have hlater := (List.mem_range'_1.mp (List.mem_of_mem_filter hj)).1
          exact mayPrecede_of_lt (Nat.lt_of_le_of_lt hin hlater)
    · rw [herror] at h
      cases h

/-- What may not come first comes second. -/
theorem idxOf_lt_of_pairwise {order : List Nat} (h : order.Pairwise (MayPrecede ts))
    (hi : i ∈ order) (hj : j ∈ order) (hij : i < j) (hnot : ¬ MayPrecede ts j i) :
    order.idxOf i < order.idxOf j := by
  refine Nat.lt_of_not_le fun hle => ?_
  rcases Nat.lt_or_eq_of_le hle with hlt | heq
  · have := List.pairwise_iff_getElem.mp h _ _ (List.idxOf_lt_length_of_mem hj)
      (List.idxOf_lt_length_of_mem hi) hlt
    rw [List.getElem_idxOf, List.getElem_idxOf] at this
    exact hnot this
  · exact Nat.ne_of_gt hij ((List.idxOf_inj hj).mp heq)

theorem rearranges_of_pairwise {order : List Nat}
    (hperm : order.Perm ((List.range ts.length).filter (isProper ts)))
    (h : order.Pairwise (MayPrecede ts)) : Rearranges ts order where
  perm := hperm
  inPlace i hi j hj hij hstays := by
    refine idxOf_lt_of_pairwise h hi hj hij fun hmay => ?_
    exact Nat.lt_asymm hij (hmay.inPlace hstays)
  group p q hgroup i hi j hj hp hiq hqj := by
    refine idxOf_lt_of_pairwise h hi hj (Nat.lt_trans hiq hqj) fun hmay => ?_
    have hle := hmay.depth_le (q + 1) (Nat.lt_succ_of_lt hiq) hqj
    exact Int.not_lt.mpr hle (hgroup.depth_lt hp hiq)

/-- **Reordering loses and duplicates nothing, and keeps what belongs together in order**, whatever
the tokens are. It succeeds exactly if the groups close, and else says that they do not. What it
yields are the tokens other than group marks in another order. Tokens that are no binary operators
come before all that are written after them, and what is written in a group comes before all that is
written behind the group. -/
theorem reorder_rearranges (ts : List Token) :
    ((∃ out, reorder ts = .ok out) ↔ Closes 0 ts) ∧
      (¬ Closes 0 ts → reorder ts = .error .unbalancedParenthesis) ∧
      ∀ out, reorder ts = .ok out →
        out.Perm (ts.filter (·.role ≠ .groupMark)) ∧
          ∃ order : List Nat, Rearranges ts order ∧ out.map some = order.map (ts[·]?) := by
  have hok : (∃ out, reorder ts = .ok out) ↔ Closes 0 ts := place_isOk_iff
  refine ⟨hok, fun hopen => ?_, fun out h => ⟨perm_of_place h, ?_⟩⟩
  · cases h : reorder ts with
    | ok out => exact absurd (hok.mp ⟨out, h⟩) hopen
    | error e => rw [failsWith_place [] ts e h]
  · obtain ⟨order, htokens, hperm, hpairwise⟩ :=
      exists_order_of_place h List.drop_zero Waits.nil rfl
    rw [List.nil_append, ← List.range_eq_range'] at hperm
    exact ⟨order, rearranges_of_pairwise hperm hpairwise, htokens⟩

/-- The stream `|(a·)*|a`, which has no tree. -/
theorem reorder_rearranges_ungrammatical :
    let ts := [op .alternation, openGroup, byte 0x61, op .concat, closeGroup, op .star,
      op .alternation, byte 0x61]
    let out := [byte 0x61, op .concat, op .star, byte 0x61, op .alternation, op .alternation]
    Closes 0 ts ∧ reorder ts = .ok out ∧
      ∃ order : List Nat, Rearranges ts order ∧ out.map some = order.map (ts[·]?) := by
  intro ts out
  have hclose : Closes 0 ts := by simp [ts, Closes]
  have h : reorder ts = .ok out := by decide
  obtain ⟨-, -, hout⟩ := reorder_rearranges ts
  exact ⟨hclose, h, (hout out h).2⟩

end ByteRegex.Token
