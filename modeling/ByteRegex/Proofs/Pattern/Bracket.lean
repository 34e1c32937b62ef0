import ByteRegex.Proofs.Pattern.Items
import ByteRegex.Proofs.Pattern.Lexer
import Mathlib

/-!
# Reading a bracket expression

The lexer reads a text between brackets unit by unit (`Lexer.run_bracket_append`), and remembers
what may still become a range. What is remembered explains the units that were read as items
(`Lexer.Pending.Explains`), and each unit continues them. So all that is left when the brackets
close is a sequence of items.

Main statement: `Lexer.exists_items_of_bracket`. Each bracket that is read closes, and its text is a
sequence of items. They are all documented if no dash follows a wildcard; the literal before such a
wildcard is still remembered, which makes `[a\d-z]` a range (`Lexer.exists_undocumented_bracket`).
-/

namespace ByteRegex

namespace Lexer

/-- What one unit does to the state of a bracket expression. -/
def BracketState.read (s : BracketState) : BracketUnit → Except SyntaxError BracketState
  | .literal b => s.literal b
  | .wildcard w => s.wildcard w
  | .dash => s.dash

variable {m : Mode} {s s' : BracketState} {c : Byte} {p text rest : List Byte}
  {us : List BracketUnit} {u : BracketUnit} {ts : List Token}

/-! ## Runs between brackets -/

theorem run_cons_of_step {x : Except SyntaxError BracketState}
    (h : step m c = x.map fun s => (.bracket s, [])) :
    run m (c :: p) = x >>= fun s => run (.bracket s) p := by
  rw [run, h]
  cases x with
  | error e => rfl
  | ok s =>
    show (run (.bracket s) p >>= _) = run (.bracket s) p
    cases run (.bracket s) p <;> rfl

theorem run_backslash (h : c.char = '\\') :
    run (.bracket s) (c :: p) = run (.bracketEscape s) p := by
  have hstep : step (.bracket s) c = .ok (.bracketEscape s, []) := by
    simp only [step, bracketStep, h]
  rw [run, hstep]
  show (run (.bracketEscape s) p >>= _) = run (.bracketEscape s) p
  cases run (.bracketEscape s) p <;> rfl

theorem step_dash (h : c.char = '-') :
    step (.bracket s) c = (s.read .dash).map fun s => (.bracket s, []) := by
  simp only [step, bracketStep, h]
  rfl

theorem step_literal (hclose : c.char ≠ ']') (hdash : c.char ≠ '-') (hslash : c.char ≠ '\\') :
    step (.bracket s) c = (s.read (.literal c)).map fun s => (.bracket s, []) := by
  simp only [step, bracketStep]
  rfl

theorem step_escaped (h : BracketUnit.ofEscaped? c = some u) :
    step (.bracketEscape s) c = (s.read u).map fun s => (.bracket s, []) := by
  unfold BracketUnit.ofEscaped? at h
  simp only [step, bracketEscapeStep]
  cases he : Escape.ofByte? c with
  | none => rw [he] at h; cases h
  | some e =>
    rw [he] at h
    cases e with
    | byte b => cases h; rfl
    | wildcard w => cases h; rfl
    | wordBoundary => cases h

theorem step_escaped_of_none (h : BracketUnit.ofEscaped? c = none) :
    step (.bracketEscape s) c = .error (.invalidEscape c) := by
  unfold BracketUnit.ofEscaped? at h
  simp only [step, bracketEscapeStep]
  cases he : Escape.ofByte? c with
  | none => rfl
  | some e =>
    rw [he] at h
    cases e with
    | byte b => cases h
    | wildcard w => cases h
    | wordBoundary => rfl

/-- **A text between brackets is read unit by unit.** -/
theorem run_bracket_append (h : BracketUnit.ofText? text = some us) (s : BracketState)
    (rest : List Byte) :
    run (.bracket s) (text ++ rest) =
      us.foldlM BracketState.read s >>= fun s' => run (.bracket s') rest := by
  fun_induction BracketUnit.ofText? text generalizing us s with
  | case1 =>
    cases h
    rfl
  | case2 => cases h
  | case3 c text hc ih =>
    obtain ⟨vs, hvs, rfl⟩ := Option.map_eq_some_iff.mp h
    rw [List.cons_append, run_cons_of_step (step_dash hc), List.foldlM_cons, bind_assoc]
    exact bind_congr fun s' => ih hvs s'
  | case4 => cases h
  | case5 c hc d text u hu ih =>
    obtain ⟨vs, hvs, rfl⟩ := Option.map_eq_some_iff.mp h
    rw [List.cons_append, List.cons_append, run_backslash hc, run_cons_of_step (step_escaped hu),
      List.foldlM_cons, bind_assoc]
    exact bind_congr fun s' => ih hvs s'
  | case6 => cases h
  | case7 c text hclose hdash hslash ih =>
    obtain ⟨vs, hvs, rfl⟩ := Option.map_eq_some_iff.mp h
    rw [List.cons_append, run_cons_of_step (step_literal hclose hdash hslash), List.foldlM_cons,
      bind_assoc]
    exact bind_congr fun s' => ih hvs s'

/-- A bracket expression that is read to its end has a text, and then the mark that ends it. -/
theorem exists_text_of_run (h : run (.bracket s) rest = .ok (.plain, ts)) :
    ∃ text after us, rest = text ++ 0x5D :: after ∧ BracketUnit.ofText? text = some us := by
  fun_induction BracketUnit.ofText? rest generalizing s ts with
  | case1 => cases h
  | case2 c text hc =>
    obtain rfl : c = 0x5D := Byte.char_injective hc
    exact ⟨[], text, [], rfl, rfl⟩
  | case3 c text hc ih =>
    rw [run_cons_of_step (step_dash hc)] at h
    obtain ⟨s', -, h⟩ := bind_eq_ok h
    obtain ⟨text', after, us, rfl, hus⟩ := ih h
    exact ⟨c :: text', after, _, rfl, BracketUnit.ofText?_dash hc hus⟩
  | case4 c hc =>
    rw [run_backslash hc] at h
    cases h
  | case5 c hc d text u hu ih =>
    rw [run_backslash hc, run_cons_of_step (step_escaped hu)] at h
    obtain ⟨s', -, h⟩ := bind_eq_ok h
    obtain ⟨text', after, us, rfl, hus⟩ := ih h
    exact ⟨c :: d :: text', after, _, rfl, BracketUnit.ofText?_escaped hc hu hus⟩
  | case6 c hc d text hu =>
    rw [run_backslash hc, run, step_escaped_of_none hu] at h
    cases h
  | case7 c text hclose hdash hslash ih =>
    rw [run_cons_of_step (step_literal hclose hdash hslash)] at h
    obtain ⟨s', -, h⟩ := bind_eq_ok h
    obtain ⟨text', after, us, rfl, hus⟩ := ih h
    exact ⟨c :: text', after, _, rfl, BracketUnit.ofText?_literal hclose hdash hslash hus⟩

theorem run_close (h : s.close = .ok ts) : run (.bracket s) [0x5D] = .ok (.plain, ts) := by
  have hclose : step (.bracket s) 0x5D = .ok (.plain, ts) := by
    show s.close.map _ = _
    rw [h]
    rfl
  rw [run, hclose]
  show Except.ok (Mode.plain, ts ++ []) = _
  rw [List.append_nil]

/-- What is read of a bracket expression, unit by unit, and how it closes. -/
theorem exists_units_of_run (h : run (.bracket s) rest = .ok (.plain, ts)) :
    ∃ text after us s' vs, rest = text ++ 0x5D :: after ∧ BracketUnit.ofText? text = some us ∧
      us.foldlM BracketState.read s = .ok s' ∧ s'.close = .ok vs ∧
      run (.bracket s) (text ++ [0x5D]) = .ok (.plain, vs) := by
  obtain ⟨text, after, us, rfl, hus⟩ := exists_text_of_run h
  rw [run_bracket_append hus] at h
  obtain ⟨s', hs', h⟩ := bind_eq_ok h
  obtain ⟨m, vs, _, hstep, _, _⟩ := run_cons_eq_ok h
  obtain ⟨vs, hvs, -⟩ := map_eq_ok hstep
  refine ⟨text, after, us, s', vs, rfl, hus, hs', hvs, ?_⟩
  rw [run_bracket_append hus, hs']
  exact run_close hvs

/-! ## What is remembered -/

/-- How the units that were read are items, given what is remembered of them: a literal, and the
wildcards since, are not yet items, nor is the lower end of a range with its dash. -/
def Pending.Explains : Pending → List BracketUnit → Prop
  | .none, us => Itemized us
  | .literal b, us =>
    ∃ front, ∃ ws : List Wildcard,
      us = front ++ .literal b :: ws.map .wildcard ∧ Itemized front
  | .range lo, us =>
    ∃ front, ∃ ws : List Wildcard,
      us = front ++ .literal lo :: ws.map .wildcard ++ [.dash] ∧ Itemized front

/-- Without an open range, what was read is a sequence of items. -/
theorem Pending.Explains.itemized {p : Pending} (h : p.Explains us) (hp : ∀ lo, p ≠ .range lo) :
    Itemized us := by
  cases p with
  | none => exact h
  | literal b =>
    obtain ⟨front, ws, rfl, hfront⟩ := h
    have hrest := (Itemized.of_item (i := .literal b) trivial).append (.of_wildcards ws)
    exact hfront.append hrest
  | range lo => exact absurd rfl (hp lo)

/-- A literal is the upper end of a range, or the last that is remembered. -/
theorem Pending.Explains.literal {b : Byte} (h : s.pending.Explains us)
    (hread : s.literal b = .ok s') : s'.pending.Explains (us ++ [.literal b]) := by
  unfold BracketState.literal at hread
  split at hread
  · next lo hp =>
    rw [hp] at h
    obtain ⟨front, ws, rfl, hfront⟩ := h
    split at hread
    · cases hread
    · next hle =>
      obtain rfl := Except.ok.inj hread
      have hrange := Itemized.of_item (i := .range lo ws b) (UInt8.not_lt.mp hle)
      have hall := hfront.append hrange
      simpa [BracketItem.units, Explains] using hall
  · next hp =>
    obtain rfl := Except.ok.inj hread
    exact ⟨us, [], rfl, h.itemized hp⟩

/-- A wildcard is an item by itself, also after a literal that stays remembered. -/
theorem Pending.Explains.wildcard {w : Wildcard} (h : s.pending.Explains us)
    (hread : s.wildcard w = .ok s') : s'.pending.Explains (us ++ [.wildcard w]) := by
  unfold BracketState.wildcard at hread
  split at hread
  · cases hread
  · next hp =>
    obtain rfl := Except.ok.inj hread
    show s.pending.Explains _
    cases hs : s.pending with
    | none =>
      rw [hs] at h
      exact Itemized.append h (Itemized.of_item (i := .wildcard w) trivial)
    | literal b =>
      rw [hs] at h
      obtain ⟨front, ws, rfl, hfront⟩ := h
      exact ⟨front, ws ++ [w], by simp, hfront⟩
    | range lo => exact absurd hs (hp lo)

/-- A dash makes a range of the literal that is remembered. -/
theorem Pending.Explains.dash (h : s.pending.Explains us) (hread : s.dash = .ok s') :
    s'.pending.Explains (us ++ [.dash]) := by
  unfold BracketState.dash at hread
  split at hread
  · next lo hp =>
    rw [hp] at h
    obtain ⟨front, ws, rfl, hfront⟩ := h
    obtain rfl := Except.ok.inj hread
    exact ⟨front, ws, rfl, hfront⟩
  · cases hread

/-- **Each unit that is read continues the items.** -/
theorem Pending.Explains.read (h : s.pending.Explains us) (hread : s.read u = .ok s') :
    s'.pending.Explains (us ++ [u]) := by
  cases u with
  | literal b => exact h.literal hread
  | wildcard w => exact h.wildcard hread
  | dash => exact h.dash hread

/-- **All units that are read continue the items.** -/
theorem Pending.Explains.foldlM {vs : List BracketUnit} (h : s.pending.Explains us)
    (hread : vs.foldlM BracketState.read s = .ok s') : s'.pending.Explains (us ++ vs) := by
  induction vs generalizing us s with
  | nil =>
    obtain rfl := Except.ok.inj hread
    rw [List.append_nil]
    exact h
  | cons v vs ih =>
    rw [List.foldlM_cons] at hread
    obtain ⟨s₁, hs₁, hread⟩ := bind_eq_ok hread
    rw [List.append_cons]
    exact ih (h.read hs₁) hread

/-- What closes is a sequence of items, and not an empty one. -/
theorem itemized_of_close {negated : Bool} {vs : List Token}
    (hread : us.foldlM BracketState.read (.start negated) = .ok s') (hclose : s'.close = .ok vs) :
    Itemized us ∧ us ≠ [] := by
  have hnone : (BracketState.start negated).pending.Explains [] := Itemized.nil
  have hexplains := hnone.foldlM hread
  unfold BracketState.close at hclose
  split at hclose
  · cases hclose
  · next hp =>
    refine ⟨hexplains.itemized hp, ?_⟩
    rintro rfl
    obtain rfl := Except.ok.inj hread
    cases hclose

/-! ## Whole brackets -/

/-- A bracket expression that is read, after its caret if it has one, has a text of items, and then
the mark that closes it. -/
theorem exists_items_of_run {negated : Bool}
    (h : run (.bracket (.start negated)) rest = .ok (.plain, ts)) :
    ∃ text after items vs, rest = text ++ 0x5D :: after ∧
      BracketUnit.ofText? text = some (items.flatMap BracketItem.units) ∧ items ≠ [] ∧
      (∀ i ∈ items, i.Ordered) ∧
      run (.bracket (.start negated)) (text ++ [0x5D]) = .ok (.plain, vs) := by
  obtain ⟨text, after, us, s', vs, heq, hus, hs', hvs, hrun⟩ := exists_units_of_run h
  obtain ⟨⟨items, rfl, hordered⟩, hne⟩ := itemized_of_close hs' hvs
  refine ⟨text, after, items, vs, heq, hus, ?_, hordered, hrun⟩
  rintro rfl
  exact hne rfl

theorem run_bracketStart_caret (hc : c.char = '^') :
    run .bracketStart (c :: p) = run (.bracket (.start true)) p := by
  have hstep : step .bracketStart c =
      (Except.ok (.start true)).map fun s => (.bracket s, []) := by
    simp only [step, if_pos hc]
    rfl
  exact run_cons_of_step hstep

theorem run_bracketStart (hc : c.char ≠ '^') :
    run .bracketStart (c :: p) = run (.bracket (.start false)) (c :: p) := by
  rw [run, run]
  simp only [step, if_neg hc]

/-- A bracket expression that is read has a body of items, and then the mark that closes it. -/
theorem exists_isBody_of_run (h : run .bracketStart rest = .ok (.plain, ts)) :
    ∃ body after items vs, rest = body ++ 0x5D :: after ∧ IsBody body items ∧
      run .bracketStart (body ++ [0x5D]) = .ok (.plain, vs) := by
  cases rest with
  | nil => cases h
  | cons c p =>
    by_cases hc : c.char = '^'
    · rw [run_bracketStart_caret hc] at h
      obtain ⟨text, after, items, vs, rfl, hus, hne, hordered, hrun⟩ := exists_items_of_run h
      refine ⟨c :: text, after, items, vs, rfl, ⟨?_, hne, hordered⟩, ?_⟩
      · rw [dropCaret, if_pos hc]
        exact hus
      · rw [List.cons_append, run_bracketStart_caret hc]
        exact hrun
    · rw [run_bracketStart hc] at h
      obtain ⟨text, after, items, vs, heq, hus, hne, hordered, hrun⟩ := exists_items_of_run h
      refine ⟨text, after, items, vs, heq, ?_⟩
      cases text with
      | nil => exact ⟨⟨hus, hne, hordered⟩, hrun⟩
      | cons d text =>
        obtain rfl := (List.cons.inj heq).1
        refine ⟨⟨?_, hne, hordered⟩, ?_⟩
        · rw [dropCaret, if_neg hc]
          exact hus
        · rw [List.cons_append, run_bracketStart hc]
          exact hrun

variable {before : List Byte} {vs : List Token}

theorem run_of_tokenize (hopen : run .plain before = .ok (.plain, vs))
    (ht : tokenize (before ++ 0x5B :: rest) = .ok ts) :
    ∃ ws, run .bracketStart rest = .ok (.plain, ws) := by
  obtain ⟨-, us, hrun, -⟩ := tokenize_eq_ok_iff.mp ht
  rw [run_append, hopen] at hrun
  obtain ⟨⟨m, ws⟩, hrest, h⟩ := bind_eq_ok (x := run .plain (0x5B :: rest)) hrun
  cases h
  obtain ⟨m₁, us, ws, hstep, hrest, -⟩ := run_cons_eq_ok hrest
  cases hstep
  exact ⟨ws, hrest⟩

/-- **The text of each bracket is a sequence of items.** Wherever a bracket opens in a pattern that
has tokens, it closes, and between is a sequence of items, one or more, after an optional caret.
Each dash has the lower end of its range and then some wildcards before it, and the upper end of its
range right behind it. All items are in the documented notation if and only if no dash follows a
wildcard. -/
theorem exists_items_of_bracket (hopen : run .plain before = .ok (.plain, vs))
    (ht : tokenize (before ++ 0x5B :: rest) = .ok ts) :
    ∃ body after items ws, rest = body ++ 0x5D :: after ∧ IsBody body items ∧
      run .bracketStart (body ++ [0x5D]) = .ok (.plain, ws) ∧
      (∀ front back, items.flatMap BracketItem.units = front ++ .dash :: back →
        ∃ items₁ items₂ lo hi, ∃ between : List Wildcard,
          items = items₁ ++ .range lo between hi :: items₂ ∧
          front = items₁.flatMap BracketItem.units ++ .literal lo :: between.map .wildcard ∧
          back = .literal hi :: items₂.flatMap BracketItem.units) ∧
      ((∀ i ∈ items, i.Documented) ↔
        ∀ w, ¬ [.wildcard w, .dash] <:+: items.flatMap BracketItem.units) := by
  obtain ⟨us, hrun⟩ := run_of_tokenize hopen ht
  obtain ⟨body, after, items, ws, heq, hbody, hclose⟩ := exists_isBody_of_run hrun
  refine ⟨body, after, items, ws, heq, hbody, hclose, ?_, BracketItem.documented_iff⟩
  intro front back h
  exact BracketItem.exists_range_of_dash h

/-- The body of a bracket whose text ends with the only mark that could close it. -/
theorem eq_of_append_close (text : List Byte) {body after : List Byte}
    (h : text ++ [0x5D] = body ++ 0x5D :: after)
    (htext : 0x5D ∉ text) : body = text := by
  rcases List.append_eq_append_iff.mp h with ⟨more, rfl, hmore⟩ | ⟨more, rfl, hmore⟩
  · cases more with
    | nil => exact List.append_nil text
    | cons c more => simp at hmore
  · cases more with
    | nil => exact (List.append_nil body).symm
    | cons c more =>
      obtain ⟨rfl, -⟩ := List.cons.inj hmore
      simp at htext

/-- The pattern `x[^a-c\d]`: a range and a wildcard, both in the documented notation. -/
theorem exists_items_of_bracket_negated :
    run .plain [0x78] = .ok (.plain, [.byte 0x78]) ∧
      (∃ ts, tokenize [0x78, 0x5B, 0x5E, 0x61, 0x2D, 0x63, 0x5C, 0x64, 0x5D] = .ok ts) ∧
      ∃ items, IsBody [0x5E, 0x61, 0x2D, 0x63, 0x5C, 0x64] items ∧ ∀ i ∈ items, i.Documented := by
  have hopen : run .plain [0x78] = .ok (.plain, [.byte 0x78]) := rfl
  have hok : (tokenize [0x78, 0x5B, 0x5E, 0x61, 0x2D, 0x63, 0x5C, 0x64, 0x5D]).isOk = true := by
    decide +kernel
  obtain ⟨ts, ht⟩ := exists_ok_of_isOk hok
  obtain ⟨body, after, items, -, heq, hbody, -, -, hdocumented⟩ := exists_items_of_bracket hopen ht
  obtain rfl := eq_of_append_close [0x5E, 0x61, 0x2D, 0x63, 0x5C, 0x64] heq (by decide)
  refine ⟨hopen, ⟨ts, ht⟩, items, hbody, hdocumented.mpr ?_⟩
  have hunits : BracketUnit.ofText? (dropCaret [0x5E, 0x61, 0x2D, 0x63, 0x5C, 0x64]) =
      some [.literal 0x61, .dash, .literal 0x63, .wildcard .digit] := by cbv
  intro w
  rw [← Option.some.inj (hunits.symm.trans hbody.units_eq)]
  simp [List.infix_cons_iff]

/-- **Not every bracket is in the documented notation.** In `[a\d-z]` the literal before the
wildcard is still remembered at the dash, so that the wildcard stands beside a dash. -/
theorem exists_undocumented_bracket :
    ¬ ∀ before rest vs ts, run .plain before = .ok (.plain, vs) →
      tokenize (before ++ 0x5B :: rest) = .ok ts →
      ∃ body after items, rest = body ++ 0x5D :: after ∧ IsBody body items ∧
        ∀ i ∈ items, i.Documented := by
  intro h
  have hok : (tokenize [0x5B, 0x61, 0x5C, 0x64, 0x2D, 0x7A, 0x5D]).isOk = true := by
    decide +kernel
  obtain ⟨ts, ht⟩ := exists_ok_of_isOk hok
  obtain ⟨body, after, items, heq, hbody, hdocumented⟩ :=
    h [] [0x61, 0x5C, 0x64, 0x2D, 0x7A, 0x5D] [] ts rfl ht
  obtain rfl := eq_of_append_close [0x61, 0x5C, 0x64, 0x2D, 0x7A] heq (by decide)
  have hunits : BracketUnit.ofText? (dropCaret [0x61, 0x5C, 0x64, 0x2D, 0x7A]) =
      some [.literal 0x61, .wildcard .digit, .dash, .literal 0x7A] := by cbv
  have hitems := Option.some.inj (hunits.symm.trans hbody.units_eq)
  refine BracketItem.documented_iff.mp hdocumented .digit ?_
  rw [← hitems]
  exact ⟨[.literal 0x61], [.literal 0x7A], rfl⟩

end Lexer

end ByteRegex
