import ByteRegex.Proofs.Pattern.Bracket
import ByteRegex.Proofs.Pattern.Literal

/-!
# The members of a bracket expression

What a bracket expression collects while it is read is the union of what its items accept
(`Lexer.Collects`). An item never leaves a range open, so one item can follow another, and each
accepts at least one byte, so the expression closes with some members.

The members are then put into tokens in one of three ways, depending on how many there are. Each way
is a primary of the grammar by itself, and describes the same: one byte that is a member, or one
that is none if there is a caret (`Lexer.exists_derives_bracketTokens`).

Main statement: a bracket expression means what its items say (`Lexer.bracket_denotes`).
-/

namespace ByteRegex

/-! ## What items accept -/

/-- Whether a byte is in an item. -/
def BracketItem.accepts (c : Byte) : BracketItem → Bool
  | literal b => b == c
  | wildcard w => w.accepts c
  | range lo between hi => lo ≤ c && c ≤ hi || between.any (·.accepts c)

/-- Whether a bracket expression is negated: its text begins with a caret. -/
def startsWithCaret : List Byte → Bool
  | [] => false
  | c :: _ => c.char == '^'

theorem Wildcard.exists_accepts (w : Wildcard) : ∃ c, w.accepts c = true := by
  cases w with
  | any | word | notDigit => exact ⟨0x61, rfl⟩
  | digit => exact ⟨0x30, rfl⟩
  | space | notWord => exact ⟨0x20, rfl⟩
  | notSpace => exact ⟨0x61, rfl⟩

/-- No item is empty. -/
theorem BracketItem.exists_accepts {i : BracketItem} (hi : i.Ordered) :
    ∃ c, i.accepts c = true := by
  cases i with
  | literal b => exact ⟨b, beq_self_eq_true b⟩
  | wildcard w => exact w.exists_accepts
  | range lo between hi' =>
    refine ⟨lo, ?_⟩
    have hle : lo ≤ hi' := hi
    simp [accepts, hle]

theorem ByteSet.isEmpty_of_contains {s : ByteSet} {c : Byte} (h : s.contains c = true) :
    s.isEmpty = false := by
  refine Bool.eq_false_iff.mpr fun hempty => ?_
  have hs : s = .empty := congrArg ByteSet.mk (eq_of_beq hempty)
  rw [hs, contains_empty] at h
  cases h

namespace Lexer

variable {s s' : BracketState} {negated : Bool} {items : List BracketItem} {i : BracketItem}
  {b c : Byte} {body p q : List Byte} {ts us : List Token}

/-! ## Collecting -/

/-- A state between items: no range is open, and the members are what the items accept. -/
structure Collects (negated : Bool) (items : List BracketItem) (s : BracketState) : Prop where
  negated_eq : s.negated = negated
  closed : ∀ lo, s.pending ≠ .range lo
  contains_eq : ∀ c, s.members.contains c = items.any (·.accepts c)

theorem literal_of_closed (h : ∀ lo, s.pending ≠ .range lo) (b : Byte) :
    s.literal b = .ok { s with members := s.members.insert b, pending := .literal b } := by
  unfold BracketState.literal
  split
  · next lo hlo => exact absurd hlo (h lo)
  · rfl

theorem wildcard_of_closed (h : ∀ lo, s.pending ≠ .range lo) (w : Wildcard) :
    s.wildcard w = .ok { s with members := s.members.union w.toSet } := by
  unfold BracketState.wildcard
  split
  · next lo hlo => exact absurd hlo (h lo)
  · rfl

/-- Wildcards are added to the members, and what is remembered stays. -/
theorem foldlM_wildcards (ws : List Wildcard) (h : ∀ lo, s.pending ≠ .range lo) :
    ∃ members, (ws.map BracketUnit.wildcard).foldlM BracketState.read s =
        .ok { s with members } ∧
      ∀ c, members.contains c = (s.members.contains c || ws.any (·.accepts c)) := by
  induction ws generalizing s with
  | nil => exact ⟨s.members, rfl, by simp⟩
  | cons w ws ih =>
    obtain ⟨members, hread, hmembers⟩ := ih (s := { s with members := s.members.union w.toSet }) h
    refine ⟨members, ?_, fun c => ?_⟩
    · rw [List.map_cons, List.foldlM_cons, BracketState.read, wildcard_of_closed h]
      exact hread
    · rw [hmembers, ByteSet.contains_union, Wildcard.contains_toSet, List.any_cons, Bool.or_assoc]

/-- A literal that is remembered is the lower end of a range to the literal behind a dash. -/
theorem foldlM_dash {lo hi : Byte} (hp : s.pending = .literal lo) (hle : lo ≤ hi) :
    [BracketUnit.dash, .literal hi].foldlM BracketState.read s =
      .ok { s with members := s.members.insertRange lo hi, pending := .none } := by
  obtain ⟨negated, members, pending⟩ := s
  obtain rfl : pending = .literal lo := hp
  show (BracketState.literal ⟨negated, members, .range lo⟩ hi >>= pure) = _
  rw [bind_pure]
  exact if_neg (UInt8.not_lt.mpr hle)

/-- **An item adds what it accepts**, and leaves no range open. -/
theorem Collects.item (h : Collects negated items s) (hi : i.Ordered) :
    ∃ s', i.units.foldlM BracketState.read s = .ok s' ∧ Collects negated (items ++ [i]) s' := by
  have hany : ∀ c, (items ++ [i]).any (·.accepts c) = (s.members.contains c || i.accepts c) := by
    intro c
    rw [List.any_append, h.contains_eq, List.any_cons, List.any_nil, Bool.or_false]
  cases i with
  | literal b =>
    refine ⟨_, (bind_pure _).trans (literal_of_closed h.closed b), h.negated_eq,
      fun lo => Pending.noConfusion, fun c => ?_⟩
    rw [hany, ByteSet.contains_insert]
    rfl
  | wildcard w =>
    refine ⟨_, (bind_pure _).trans (wildcard_of_closed h.closed w), h.negated_eq, h.closed,
      fun c => ?_⟩
    rw [hany, ByteSet.contains_union, Wildcard.contains_toSet]
    rfl
  | range lo between hi' =>
    have hle : lo ≤ hi' := hi
    -- the lower end is a literal at first, and the wildcards behind it leave it remembered
    obtain ⟨members, hread, hmembers⟩ := foldlM_wildcards
      (s := { s with members := s.members.insert lo, pending := .literal lo }) between
      (fun _ => Pending.noConfusion)
    refine ⟨⟨s.negated, members.insertRange lo hi', .none⟩, ?_, h.negated_eq,
      fun lo => Pending.noConfusion, fun c => ?_⟩
    · rw [BracketItem.units, List.foldlM_append, List.foldlM_cons, BracketState.read,
        literal_of_closed h.closed]
      show (List.foldlM _ _ _ >>= _) = _
      rw [hread]
      exact foldlM_dash (s := ⟨s.negated, members, .literal lo⟩) rfl hle
    · rw [hany, ByteSet.contains_insertRange, hmembers, ByteSet.contains_insert,
        BracketItem.accepts]
      by_cases hc : lo = c
      · subst hc
        simp [hle]
      · simp only [beq_eq_false_iff_ne.mpr hc, Bool.or_false, Bool.or_assoc]
        rw [Bool.or_comm (between.any _)]

/-- **The items of a bracket expression are collected one by one.** -/
theorem Collects.append {more : List BracketItem} (h : Collects negated items s)
    (hmore : ∀ i ∈ more, i.Ordered) :
    ∃ s', (more.flatMap BracketItem.units).foldlM BracketState.read s = .ok s' ∧
      Collects negated (items ++ more) s' := by
  induction more generalizing items s with
  | nil => exact ⟨s, rfl, by rwa [List.append_nil]⟩
  | cons i more ih =>
    obtain ⟨hi, hmore⟩ := List.forall_mem_cons.mp hmore
    obtain ⟨s₁, hread, h₁⟩ := h.item hi
    obtain ⟨s', hread', h'⟩ := ih h₁ hmore
    refine ⟨s', ?_, by rwa [List.append_cons]⟩
    rw [List.flatMap_cons, List.foldlM_append, hread]
    exact hread'

/-! ## Whole brackets -/

theorem run_bracketStart_append (body : List Byte) :
    run .bracketStart (body ++ [0x5D]) =
      run (.bracket (.start (startsWithCaret body))) (dropCaret body ++ [0x5D]) := by
  cases body with
  | nil => exact run_bracketStart (by decide)
  | cons c p =>
    by_cases hc : c.char = '^'
    · rw [List.cons_append, run_bracketStart_caret hc, startsWithCaret, dropCaret, if_pos hc,
        beq_iff_eq.mpr hc]
    · rw [List.cons_append, run_bracketStart hc, startsWithCaret, dropCaret, if_neg hc,
        beq_eq_false_iff_ne.mpr hc, List.cons_append]

/-- **A bracket expression is read to its end**, and emits the tokens of what its items accept. -/
theorem exists_emits_bracket (h : IsBody body items) :
    ∃ members : ByteSet,
      Emits (0x5B :: (body ++ [0x5D])) (bracketTokens (startsWithCaret body) members) ∧
      (∀ c, members.contains c = items.any (·.accepts c)) ∧
      ∃ c, members.contains c = true := by
  have hstart : Collects (startsWithCaret body) [] (.start (startsWithCaret body)) :=
    ⟨rfl, fun _ => Pending.noConfusion, fun _ => ByteSet.contains_empty _⟩
  obtain ⟨s, hread, hs⟩ := hstart.append h.ordered
  have hmember : ∃ c, s.members.contains c = true := by
    obtain ⟨i, hi⟩ := List.exists_mem_of_ne_nil items h.ne_nil
    obtain ⟨c, hc⟩ := BracketItem.exists_accepts (h.ordered i hi)
    exact ⟨c, (hs.contains_eq c).trans (List.any_eq_true.mpr ⟨i, hi, hc⟩)⟩
  have hclose : s.close = .ok (bracketTokens (startsWithCaret body) s.members) := by
    obtain ⟨c, hc⟩ := hmember
    unfold BracketState.close
    split
    · next lo hlo => exact absurd hlo (hs.closed lo)
    · rw [ByteSet.isEmpty_of_contains hc, hs.negated_eq]
      rfl
  refine ⟨s.members, ?_, hs.contains_eq, hmember⟩
  have hopen : step .plain 0x5B = .ok (.bracketStart, []) := rfl
  rw [Emits, run_cons_of_silent hopen, run_bracketStart_append, run_bracket_append h.units_eq,
    hread]
  exact run_close hclose

end Lexer

/-! ## What tokens accept -/

/-- An expression reads one byte, and any byte that has a property. -/
def Expr.ReadsOne (e : Expr) (accepts : Byte → Bool) : Prop :=
  ∀ buffer c d, e.Derives buffer c d ↔
    (∃ b, buffer[c.pos]? = some b ∧ accepts b = true) ∧ d = ⟨c.letters + 1, c.pos + 1⟩

namespace Expr.ReadsOne

variable {e e' : Expr} {accepts accepts' : Byte → Bool} {x : Letter}

theorem letter (hx : ∀ a, x ≠ .anchor a) : (Expr.letter x).ReadsOne (x.accepts ·) := by
  intro buffer c d
  obtain ⟨m, j⟩ := d
  rw [Progress.mk.injEq]
  cases x with
  | anchor a => exact absurd rfl (hx a)
  | byte _ | wildcard _ | byteClass _ =>
    exact ⟨fun ⟨hm, hb, hj⟩ => ⟨hb, hm, hj⟩, fun ⟨hb, hm, hj⟩ => ⟨hm, hb, hj⟩⟩

theorem alternation (h : e.ReadsOne accepts) (h' : e'.ReadsOne accepts') :
    (Expr.alternation e e').ReadsOne fun b => accepts b || accepts' b := by
  intro buffer c d
  show e.Derives buffer c d ∨ e'.Derives buffer c d ↔ _
  rw [h buffer c d, h' buffer c d, ← or_and_right, ← exists_or]
  simp only [← and_or_left, Bool.or_eq_true]

theorem congr (h : e.ReadsOne accepts) (heq : ∀ b, accepts b = accepts' b) :
    e.ReadsOne accepts' := by
  rwa [← funext heq]

end Expr.ReadsOne

/-! ## Groups of bytes -/

/-- The tree of one byte or another. -/
def TokenTree.oneOf : Byte → List Byte → TokenTree
  | b, [] => .leaf (.byte b) rfl
  | b, c :: cs => .binary (.op .bracketAlternation) rfl (.leaf (.byte b) rfl) (oneOf c cs)

/-- The tokens of one byte or another. -/
def Token.alternatives (bs : List Byte) : List Token :=
  (bs.map Token.byte).intersperse (.op .bracketAlternation)

theorem TokenTree.derives_oneOf (b : Byte) (bs : List Byte) :
    Derives .alternatives (Token.alternatives (b :: bs)) (oneOf b bs) := by
  have hbyte : ∀ b : Byte, Derives .sequence [.byte b] (.leaf (.byte b) rfl) := fun _ =>
    .repetition (.primary (.atom rfl))
  induction bs generalizing b with
  | nil => exact .sequence (hbyte b)
  | cons c bs ih => exact .alternation (.inr rfl) (hbyte b) (ih c)

theorem TokenTree.readsOne_oneOf (b : Byte) (bs : List Byte) :
    (oneOf b bs).expr.ReadsOne fun c => (b :: bs).contains c := by
  have hbyte : ∀ b : Byte, (Expr.letter (.byte b)).ReadsOne (b == ·) := fun _ =>
    .letter fun _ => Letter.noConfusion
  induction bs generalizing b with
  | nil =>
    refine (hbyte b).congr fun c => ?_
    rw [List.contains_cons, List.contains_nil, Bool.or_false, Bool.beq_comm]
  | cons e bs ih =>
    refine ((hbyte b).alternation (ih e)).congr fun c => ?_
    rw [List.contains_cons (a := b), Bool.beq_comm]

theorem Token.joinOperands_alternatives (bs : List Byte) :
    joinOperands (alternatives bs) = alternatives bs := by
  induction bs with
  | nil => rfl
  | cons b bs ih =>
    cases bs with
    | nil => rfl
    | cons c bs =>
      show joinOperands (.byte b :: .op .bracketAlternation :: alternatives (c :: bs)) =
        .byte b :: .op .bracketAlternation :: alternatives (c :: bs)
      rw [joinOperands, if_neg (by simp [beginsOperand, isAtom]), joinOperands_cons_of_not_ends rfl,
        ih]

/-- Nothing is added to a group of bytes. -/
theorem Token.joinOperands_alternativesGroup (bs : List Byte) :
    joinOperands (.openGroup :: alternatives bs ++ [.closeGroup]) =
      .openGroup :: alternatives bs ++ [.closeGroup] := by
  rw [List.cons_append, joinOperands_group, joinOperands_alternatives, List.cons_append]

/-! ## Meaning -/

namespace Lexer

variable {members : ByteSet} {body : List Byte} {items : List BracketItem}

/-- **However members are put into tokens, the tokens are a primary that reads one of them**, or one
byte that is none of them. They are a byte, a group of two or three bytes, or a class. -/
theorem exists_derives_bracketTokens (negated : Bool)
    (hmember : ∃ c, members.contains c = true) :
    ((∃ b, bracketTokens negated members = [.byte b]) ∨
        (∃ bs : List Byte, (bs.length = 2 ∨ bs.length = 3) ∧ bracketTokens negated members =
          .openGroup :: Token.alternatives bs ++ [.closeGroup]) ∨
        ∃ c, bracketTokens negated members = [.byteClass c]) ∧
      Token.joinOperands (bracketTokens negated members) = bracketTokens negated members ∧
      ∃ s, Derives .primary (bracketTokens negated members) s ∧
        s.expr.ReadsOne fun b => members.contains b != negated := by
  unfold bracketTokens
  split
  · exact ⟨.inr (.inr ⟨_, rfl⟩), rfl, _, .atom rfl, .letter fun _ => Letter.noConfusion⟩
  · next hsmall =>
    rw [Bool.or_eq_true, not_or, Bool.not_eq_true, decide_eq_true_iff, Nat.not_lt] at hsmall
    obtain ⟨rfl, hcount⟩ := hsmall
    obtain ⟨b, bs, hlist⟩ : ∃ b bs, members.toList = b :: bs := by
      obtain ⟨c, hc⟩ := hmember
      exact List.exists_cons_of_ne_nil (List.ne_nil_of_mem ((members.mem_toList c).mpr hc))
    have hreads : (TokenTree.oneOf b bs).expr.ReadsOne fun c => members.contains c != false :=
      (TokenTree.readsOne_oneOf b bs).congr fun c => by
        rw [Bool.eq_iff_iff, ← hlist, List.contains_iff_mem, ByteSet.mem_toList, Bool.bne_false]
    rw [ByteSet.count, hlist, List.length_cons] at hcount
    rw [hlist]
    cases bs with
    | nil => exact ⟨.inl ⟨b, rfl⟩, rfl, _, .atom rfl, hreads⟩
    | cons c bs =>
      rw [List.length_cons, maxListedMembers] at hcount
      refine ⟨.inr (.inl ⟨b :: c :: bs, ?_, rfl⟩), ?_, _, .group (TokenTree.derives_oneOf b _),
        hreads⟩
      · rw [List.length_cons, List.length_cons]
        omega
      · exact Token.joinOperands_alternativesGroup _

/-- **A bracket expression means what its items say.** It is read to its end, and emits a byte, a
group of two or three bytes, or a class. Wherever it stands in a pattern, these tokens follow those
before them, after a concatenation if an operand ends there, and they are a primary of the grammar.
What they describe is one byte: any that is in one of the items, or with a caret, any that is in
none. The items may overlap, and wildcards may be between the lower end of a range and its dash. -/
theorem bracket_denotes (h : IsBody body items) :
    ∃ ts s, Emits (0x5B :: (body ++ [0x5D])) ts ∧
      ((∃ b, ts = [.byte b]) ∨
        (∃ bs : List Byte, (bs.length = 2 ∨ bs.length = 3) ∧
          ts = .openGroup :: Token.alternatives bs ++ [.closeGroup]) ∨
        ∃ c, ts = [.byteClass c]) ∧
      (∀ before after us vs, Emits before us → Emits after vs →
        before.length + (body.length + 2) + after.length ≤ maxPatternLength →
        tokenize (before ++ 0x5B :: (body ++ 0x5D :: after)) =
          .ok (Token.joinOperands us ++ Token.glue us ts ++ ts ++ Token.glue ts vs ++
            Token.joinOperands vs)) ∧
      Derives .primary ts s ∧
      s.expr.ReadsOne fun b => items.any (·.accepts b) != startsWithCaret body := by
  obtain ⟨members, hemits, hmembers, hmember⟩ := exists_emits_bracket h
  obtain ⟨hform, hjoin, s, hs, hreads⟩ :=
    exists_derives_bracketTokens (startsWithCaret body) hmember
  refine ⟨_, s, hemits, hform, ?_, hs, hreads.congr fun b => by rw [hmembers]⟩
  intro before after us vs hbefore hafter hlength
  have hwhole : before ++ 0x5B :: (body ++ 0x5D :: after) =
      before ++ (0x5B :: (body ++ [0x5D]) ++ after) := by simp
  rw [hwhole, (hbefore.append (hemits.append hafter)).tokenize_eq ?_, Token.joinOperands_append,
    Token.glue_append_right hs.ne_nil, Token.joinOperands_append, hjoin]
  · simp only [List.append_assoc]
  · simp only [List.length_append, List.length_cons, List.length_nil]
    omega

/-- The bracket expression `[^a-c\d]`, behind a letter. -/
theorem bracket_denotes_negated :
    ∃ body items, body = [0x5E, 0x61, 0x2D, 0x63, 0x5C, 0x64] ∧ IsBody body items ∧
      items = [.range 0x61 [] 0x63, .wildcard .digit] ∧
      ∃ ts s, tokenize (0x78 :: 0x5B :: (body ++ [0x5D])) = .ok (.byte 0x78 :: .op .concat :: ts) ∧
        Derives .primary ts s ∧ s.expr.ReadsOne fun b => items.any (·.accepts b) != true := by
  have hbody : IsBody [0x5E, 0x61, 0x2D, 0x63, 0x5C, 0x64]
      [.range 0x61 [] 0x63, .wildcard .digit] := by
    refine ⟨by cbv, by simp, ?_⟩
    simp [BracketItem.Ordered]
  obtain ⟨ts, s, -, hform, htokens, hs, hreads⟩ := bracket_denotes hbody
  have hglue : Token.glue [.byte 0x78] ts = [.op .concat] := by
    rcases hform with ⟨b, rfl⟩ | ⟨bs, -, rfl⟩ | ⟨c, rfl⟩ <;> rfl
  have htokens := htokens [0x78] [] [.byte 0x78] [] rfl rfl (by decide)
  rw [hglue, Token.glue_nil_right, List.append_nil] at htokens
  exact ⟨_, _, rfl, hbody, rfl, ts, s, htokens.trans (congrArg _ (List.append_nil _)), hs, hreads⟩

end Lexer

end ByteRegex
