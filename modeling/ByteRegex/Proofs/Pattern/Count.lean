import ByteRegex.Proofs.Pattern.Join

/-!
# Repetition counts are read by their grammar

Between braces, blanks are passed over and whatever else is not part of a count is refused, so that
what was read so far is always the beginning of a count (`CountState.Explains`). `WritesCount` is
the grammar of what stands between the braces once the blanks are gone:

    count ::= numeral | numeral ',' | numeral ',' numeral

The limits are checked digit by digit, and the number of digits is counted anew behind the comma.
That comes to the same as checking each numeral when it is complete, since neither its value nor its
length can get smaller.

Main statement: a text between braces is read as a count exactly if it writes one
(`Lexer.count_iff_writesCount`).
-/

namespace ByteRegex.Lexer

variable {p q ds es rest text : List Byte} {c : Byte} {s s' : CountState} {m : Mode}
  {t : Token} {ts us : List Token}

/-! ## The grammar -/

/-- The texts between braces that write a count, without blanks, and the count that they write. -/
inductive WritesCount : List Byte → Nat → Option Nat → Prop where
  | exactly {ds : List Byte} {n : Nat} : IsNumeral ds n → WritesCount ds n (some n)
  | atLeast {ds : List Byte} {n : Nat} : IsNumeral ds n → WritesCount (ds ++ [0x2C]) n none
  | between {ds es : List Byte} {n k : Nat} : IsNumeral ds n → IsNumeral es k → n ≤ k →
    WritesCount (ds ++ 0x2C :: es) n (some k)

theorem decimalFrom_append_digit (value : Nat) (ds : List Byte) (c : Byte) :
    decimalFrom value (ds ++ [c]) = decimalFrom value ds * 10 + c.digitValue := by
  rw [decimalFrom, List.foldl_append, decimalFrom]
  rfl

/-! ## One byte -/

theorem step_blank (s : CountState) : step (.count s) 0x20 = .ok (.count s, []) := rfl

theorem step_close (h : s.close = .ok t) : step (.count s) 0x7D = .ok (.plain, [t]) :=
  congrArg (Except.map fun t => (Mode.plain, [t])) h

/-- What a byte other than a blank and the closing brace does: it continues the digits, or it is the
first comma. -/
theorem digit_or_comma_of_step (hblank : c ≠ 0x20) (hclose : c ≠ 0x7D)
    (h : step (.count s) c = .ok (m, ts)) :
    ∃ s', m = .count s' ∧ ts = [] ∧
      (c.isDigit = true ∧ s.digit c = .ok s' ∨ c = 0x2C ∧ s.min = none ∧ s.comma = .ok s') := by
  simp only [step, countStep] at h
  split at h
  · next hdigit =>
    obtain ⟨s', hs', heq⟩ := map_eq_ok h
    obtain ⟨rfl, rfl⟩ := Prod.mk.inj heq
    exact ⟨s', rfl, rfl, .inl ⟨hdigit, hs'⟩⟩
  · split at h
    · next hc => exact absurd (Byte.char_injective (hc.trans rfl)) hblank
    · next hc =>
      split at h
      · next hmin =>
        obtain ⟨s', hs', heq⟩ := map_eq_ok h
        obtain ⟨rfl, rfl⟩ := Prod.mk.inj heq
        exact ⟨s', rfl, rfl, .inr ⟨Byte.char_injective (hc.trans rfl),
          Option.isNone_iff_eq_none.mp hmin, hs'⟩⟩
      · cases h
    · next hc => exact absurd (Byte.char_injective (hc.trans rfl)) hclose
    · cases h

theorem digit_eq_ok_iff : s.digit c = .ok s' ↔
    s.current.getD 0 * 10 + c.digitValue ≤ maxCount ∧ s.digits + 1 ≤ maxCountDigits ∧
      s' = ⟨s.min, some (s.current.getD 0 * 10 + c.digitValue), s.digits + 1⟩ := by
  unfold CountState.digit
  dsimp only
  split
  · next hgt => exact iff_of_false (fun h => nomatch h) fun h => Nat.not_le_of_gt hgt h.1
  · next hvalue =>
    split
    · next hgt => exact iff_of_false (fun h => nomatch h) fun h => Nat.not_le_of_gt hgt h.2.1
    · next hdigits =>
      rw [Except.ok.injEq, eq_comm, and_iff_right (Nat.le_of_not_gt hvalue),
        and_iff_right (Nat.le_of_not_gt hdigits)]

/-! ## Blanks -/

/-- Blanks before the closing brace do not matter. -/
theorem run_count_filter (hclose : 0x7D ∉ p) (q : List Byte) :
    run (.count s) (p ++ q) = run (.count s) (p.filter (· ≠ 0x20) ++ q) := by
  induction p generalizing s with
  | nil => rfl
  | cons c p ih =>
    obtain ⟨hc, hp⟩ := not_or.mp (mt List.mem_cons.mpr hclose)
    by_cases hblank : c = 0x20
    · subst hblank
      rw [List.cons_append, run_cons_of_silent (step_blank s), ih hp,
        List.filter_cons_of_neg (by decide)]
    · rw [List.filter_cons_of_pos (by simpa using hblank), List.cons_append, List.cons_append, run,
        run]
      cases hstep : step (.count s) c with
      | error e => rfl
      | ok r =>
        obtain ⟨m, ts⟩ := r
        obtain ⟨s', rfl, rfl, -⟩ := digit_or_comma_of_step hblank (Ne.symm hc) hstep
        show (run (.count s') (p ++ q) >>= _) = _
        rw [ih hp]
        rfl

/-! ## What is remembered -/

/-- The digits since the brace or the comma, given what is remembered of them. -/
def CountState.ReadsDigits (s : CountState) (ds : List Byte) : Prop :=
  s.digits = ds.length ∧
    match s.current with
    | none => ds = []
    | some n => IsNumeral ds n

/-- The text since the brace, given what is remembered of it. -/
def CountState.Explains (s : CountState) (text : List Byte) : Prop :=
  match s.min with
  | none => s.ReadsDigits text
  | some n => ∃ ds es, text = ds ++ 0x2C :: es ∧ IsNumeral ds n ∧ s.ReadsDigits es

theorem explains_start : CountState.start.Explains [] := ⟨rfl, rfl⟩

/-- **A digit that is within the limits continues the numeral.** -/
theorem CountState.ReadsDigits.digit (h : s.ReadsDigits ds) (hc : c.isDigit = true)
    (hread : s.digit c = .ok s') : s'.ReadsDigits (ds ++ [c]) := by
  obtain ⟨hvalue, hdigits, rfl⟩ := digit_eq_ok_iff.mp hread
  obtain ⟨min, current, digits⟩ := s
  obtain ⟨rfl, hcurrent⟩ := h
  -- before the first digit, the value of none is zero
  have hbefore : (∀ d ∈ ds, d.isDigit = true) ∧ decimalFrom 0 ds = current.getD 0 := by
    cases current with
    | none =>
      obtain rfl : ds = [] := hcurrent
      exact ⟨fun _ hd => absurd hd List.not_mem_nil, rfl⟩
    | some n => exact ⟨hcurrent.digits, hcurrent.value_eq⟩
  refine ⟨by rw [List.length_append]; rfl, ?_⟩
  refine ⟨?_, List.append_ne_nil_of_right_ne_nil _ (List.cons_ne_nil _ _), ?_, ?_, hvalue⟩
  · intro d hd
    rcases List.mem_append.mp hd with hd | hd
    · exact hbefore.1 d hd
    · rw [List.mem_singleton.mp hd]
      exact hc
  · rw [List.length_append]
    exact hdigits
  · rw [decimalFrom_append_digit, hbefore.2]

theorem CountState.Explains.digit (h : s.Explains text) (hc : c.isDigit = true)
    (hread : s.digit c = .ok s') : s'.Explains (text ++ [c]) := by
  have hmin : s'.min = s.min := by
    obtain ⟨-, -, rfl⟩ := digit_eq_ok_iff.mp hread
    rfl
  unfold CountState.Explains at h ⊢
  rw [hmin]
  cases hm : s.min with
  | none =>
    rw [hm] at h
    exact h.digit hc hread
  | some n =>
    rw [hm] at h
    obtain ⟨ds, es, rfl, hds, hes⟩ := h
    exact ⟨ds, es ++ [c], by simp, hds, hes.digit hc hread⟩

/-- The first comma completes the minimum. -/
theorem CountState.Explains.comma (h : s.Explains text) (hmin : s.min = none)
    (hread : s.comma = .ok s') : s'.Explains (text ++ [0x2C]) := by
  unfold CountState.comma at hread
  split at hread
  · next n hcurrent =>
    obtain rfl := Except.ok.inj hread
    unfold CountState.Explains at h
    rw [hmin] at h
    obtain ⟨-, hds⟩ := h
    rw [hcurrent] at hds
    exact ⟨text, [], rfl, hds, rfl, rfl⟩
  · cases hread

/-- **What is read without being refused is always the beginning of a count.** -/
theorem CountState.Explains.run (h : s.Explains text) (hblank : 0x20 ∉ rest) (hclose : 0x7D ∉ rest)
    (hrun : run (.count s) rest = .ok (m, ts)) :
    ∃ s', m = .count s' ∧ ts = [] ∧ s'.Explains (text ++ rest) := by
  induction rest generalizing s text ts with
  | nil =>
    obtain ⟨rfl, rfl⟩ := Prod.mk.inj (Except.ok.inj hrun)
    exact ⟨s, rfl, rfl, by rwa [List.append_nil]⟩
  | cons c rest ih =>
    obtain ⟨hcblank, hblank⟩ := not_or.mp (mt List.mem_cons.mpr hblank)
    obtain ⟨hcclose, hclose⟩ := not_or.mp (mt List.mem_cons.mpr hclose)
    obtain ⟨m₁, us, vs, hstep, hrest, rfl⟩ := run_cons_eq_ok hrun
    obtain ⟨s₁, rfl, rfl, hread⟩ := digit_or_comma_of_step (Ne.symm hcblank) (Ne.symm hcclose) hstep
    have h₁ : s₁.Explains (text ++ [c]) := by
      rcases hread with ⟨hc, hread⟩ | ⟨rfl, hmin, hread⟩
      · exact h.digit hc hread
      · exact h.comma hmin hread
    rw [List.append_cons]
    exact ih h₁ hblank hclose hrest

/-- What the closing brace accepts is a count. -/
theorem CountState.Explains.close (h : s.Explains text) (hclose : s.close = .ok t) :
    ∃ min max, WritesCount text min max ∧ t = .count min max := by
  obtain ⟨min, current, digits⟩ := s
  cases min with
  | none =>
    obtain ⟨-, hds⟩ := h
    cases current with
    | none => cases hclose
    | some n => exact ⟨n, some n, .exactly hds, (Except.ok.inj hclose).symm⟩
  | some n =>
    obtain ⟨ds, es, rfl, hds, -, hes⟩ := h
    cases current with
    | none =>
      obtain rfl : es = [] := hes
      exact ⟨n, none, .atLeast hds, (Except.ok.inj hclose).symm⟩
    | some k =>
      simp only [CountState.close] at hclose
      split at hclose
      · cases hclose
      · next hle =>
        exact ⟨n, some k, .between hds hes (Nat.le_of_not_gt hle), (Except.ok.inj hclose).symm⟩

/-! ## Whole counts -/

/-- A text that writes a count is read as that count. -/
theorem WritesCount.run {min : Nat} {max : Option Nat} (h : WritesCount text min max) :
    run (.count .start) (text ++ [0x7D]) = .ok (.plain, [.count min max]) := by
  cases h with
  | exactly hds =>
    have hread : Lexer.run (.count .start) text = _ := run_numeral hds
    rw [run_append_of_silent hread, Lexer.run, step_close rfl]
    rfl
  | @atLeast ds n hds =>
    have hread : Lexer.run (.count .start) ds = _ := run_numeral hds
    have hcomma : step (.count ⟨none, some min, ds.length⟩) 0x2C =
        .ok (.count ⟨some min, none, 0⟩, []) := rfl
    rw [List.append_assoc, run_append_of_silent hread, List.singleton_append,
      run_cons_of_silent hcomma, Lexer.run, step_close rfl]
    rfl
  | between hds hes hle =>
    have hopen : step .plain 0x7B = .ok (.count .start, []) := rfl
    rw [List.append_assoc, List.cons_append, ← run_cons_of_silent hopen]
    exact emits_count hds hes hle

theorem run_count_iff (hclose : 0x7D ∉ p) {r : Mode × List Token} :
    run (.count .start) (p ++ [0x7D]) = .ok r ↔
      ∃ min max, WritesCount (p.filter (· ≠ 0x20)) min max ∧ r = (.plain, [.count min max]) := by
  have hblank : 0x20 ∉ p.filter (· ≠ 0x20) := by simp
  have hclose' : 0x7D ∉ p.filter (· ≠ 0x20) := fun h => hclose (List.mem_filter.mp h).1
  rw [run_count_filter hclose]
  constructor
  · intro h
    rw [run_append] at h
    obtain ⟨⟨m, ts⟩, hrun, h⟩ := bind_eq_ok h
    obtain ⟨s, rfl, rfl, hs⟩ := explains_start.run hblank hclose' hrun
    obtain ⟨⟨m, us⟩, hrun, h⟩ := bind_eq_ok h
    obtain ⟨m₁, us, vs, hstep, hnil, rfl⟩ := run_cons_eq_ok hrun
    obtain ⟨t, ht, heq⟩ := map_eq_ok hstep
    obtain ⟨rfl, rfl⟩ := Prod.mk.inj heq
    obtain ⟨rfl, rfl⟩ := Prod.mk.inj (Except.ok.inj hnil)
    obtain ⟨min, max, hwrites, rfl⟩ := hs.close ht
    exact ⟨min, max, hwrites, (Except.ok.inj h).symm⟩
  · rintro ⟨min, max, hwrites, rfl⟩
    exact hwrites.run

/-! ## The accumulator -/

/-- The value of the digits that a mode remembers is within the limit. -/
def Mode.ValueFits : Mode → Prop
  | .count s => s.current.getD 0 ≤ maxCount
  | _ => True

theorem valueFits_of_map {α : Type} {x : Except SyntaxError α} {f : α → Mode × List Token}
    (h : x.map f = .ok (m, ts)) (hf : ∀ a, (f a).1.ValueFits) : m.ValueFits := by
  obtain ⟨a, -, heq⟩ := map_eq_ok h
  have ha := hf a
  rwa [heq] at ha

theorem valueFits_of_bracketStep {b : BracketState} (h : bracketStep b c = .ok (m, ts)) :
    m.ValueFits := by
  unfold bracketStep at h
  split at h
  · exact valueFits_of_map h fun _ => trivial
  · exact valueFits_of_map h fun _ => trivial
  · cases h
    trivial
  · exact valueFits_of_map h fun _ => trivial

theorem valueFits_of_countStep (hs : (Mode.count s).ValueFits)
    (h : step (.count s) c = .ok (m, ts)) : m.ValueFits := by
  by_cases hblank : c = 0x20
  · subst hblank
    obtain ⟨rfl, -⟩ := Prod.mk.inj (Except.ok.inj h)
    exact hs
  · by_cases hclose : c = 0x7D
    · subst hclose
      exact valueFits_of_map h fun _ => trivial
    · obtain ⟨s', rfl, -, ⟨-, hread⟩ | ⟨-, -, hread⟩⟩ := digit_or_comma_of_step hblank hclose h
      · obtain ⟨hvalue, -, rfl⟩ := digit_eq_ok_iff.mp hread
        exact hvalue
      · unfold CountState.comma at hread
        split at hread
        · obtain rfl := Except.ok.inj hread
          exact Nat.zero_le _
        · cases hread

theorem valueFits_of_step {m' : Mode} (hm : m.ValueFits) (h : step m c = .ok (m', ts)) :
    m'.ValueFits := by
  cases m with
  | plain =>
    simp only [step, plainStep, Except.ok.injEq] at h
    split at h
    case h_2 =>
      cases h
      exact Nat.zero_le _
    all_goals
      cases h
      trivial
  | escape =>
    simp only [step, escapeStep] at h
    split at h <;> cases h
    trivial
  | count s => exact valueFits_of_countStep hm h
  | bracketStart =>
    simp only [step] at h
    split at h
    · cases h
      trivial
    · exact valueFits_of_bracketStep h
  | bracket b => exact valueFits_of_bracketStep h
  | bracketEscape b =>
    simp only [step, bracketEscapeStep] at h
    split at h
    · exact valueFits_of_map h fun _ => trivial
    · exact valueFits_of_map h fun _ => trivial
    · cases h
    · cases h

/-- No run remembers a value beyond the limit. -/
theorem valueFits_of_run {m' : Mode} (hm : m.ValueFits) (h : run m p = .ok (m', ts)) :
    m'.ValueFits := by
  induction p generalizing m ts with
  | nil =>
    obtain ⟨rfl, -⟩ := Prod.mk.inj (Except.ok.inj h)
    exact hm
  | cons c p ih =>
    obtain ⟨m₁, us, vs, hstep, hrun, -⟩ := run_cons_eq_ok h
    exact ih (valueFits_of_step hm hstep) hrun

theorem digitValue_le (h : c.isDigit = true) : c.digitValue ≤ 9 := by
  rw [Byte.isDigit, Bool.and_eq_true, decide_eq_true_iff, decide_eq_true_iff,
    UInt8.le_iff_toNat_le, UInt8.le_iff_toNat_le] at h
  obtain ⟨-, hnine⟩ := h
  exact Nat.sub_le_sub_right hnine 0x30

/-! ## Counts in a pattern -/

/-- **Repetition counts are read by exactly their grammar.** Behind a text that leaves nothing open,
let a text without closing brace stand between braces.

* It is read if and only if it writes a count once its blanks are gone, and then that count is the
  one token that it gives.
* The same holds of the pattern that ends there.
* Whatever was read before a digit of a count, the value with that digit fits into 16 bits. -/
theorem count_iff_writesCount (hq : Emits q us) (hclose : 0x7D ∉ p) :
    (∀ r, run .plain (q ++ 0x7B :: (p ++ [0x7D])) = .ok r ↔
      ∃ min max, WritesCount (p.filter (· ≠ 0x20)) min max ∧
        r = (.plain, us ++ [.count min max])) ∧
    ((q ++ 0x7B :: (p ++ [0x7D])).length ≤ maxPatternLength →
      ∀ ts, tokenize (q ++ 0x7B :: (p ++ [0x7D])) = .ok ts ↔
        ∃ min max, WritesCount (p.filter (· ≠ 0x20)) min max ∧
          ts = Token.joinOperands us ++ [.count min max]) ∧
    ∀ text s ts (c : Byte), run .plain text = .ok (.count s, ts) → c.isDigit = true →
      s.current.getD 0 * 10 + c.digitValue < UInt16.size := by
  have hopen : step .plain 0x7B = .ok (.count .start, []) := rfl
  have hrun : ∀ r, run .plain (q ++ 0x7B :: (p ++ [0x7D])) = .ok r ↔
      ∃ min max, WritesCount (p.filter (· ≠ 0x20)) min max ∧
        r = (.plain, us ++ [.count min max]) := by
    intro r
    rw [run_append, hq]
    show (run .plain (0x7B :: (p ++ [0x7D])) >>= _) = _ ↔ _
    rw [run_cons_of_silent hopen]
    constructor
    · intro h
      obtain ⟨r', hr', h⟩ := bind_eq_ok h
      obtain ⟨min, max, hwrites, rfl⟩ := (run_count_iff hclose).mp hr'
      exact ⟨min, max, hwrites, (Except.ok.inj h).symm⟩
    · rintro ⟨min, max, hwrites, rfl⟩
      rw [(run_count_iff hclose).mpr ⟨min, max, hwrites, rfl⟩]
      rfl
  refine ⟨hrun, fun hlength ts => ?_, fun text s ts c htext hc => ?_⟩
  · rw [tokenize_eq_ok_iff, and_iff_right hlength]
    have hjoin : ∀ min max, Token.joinOperands (us ++ [.count min max]) =
        Token.joinOperands us ++ [.count min max] := fun min max =>
      Token.joinOperands_append_of_head (by simp [Token.beginsOperand, Token.isAtom])
    constructor
    · rintro ⟨vs, hvs, rfl⟩
      obtain ⟨min, max, hwrites, heq⟩ := (hrun _).mp hvs
      obtain ⟨-, rfl⟩ := Prod.mk.inj heq
      exact ⟨min, max, hwrites, hjoin min max⟩
    · rintro ⟨min, max, hwrites, rfl⟩
      exact ⟨_, (hrun _).mpr ⟨min, max, hwrites, rfl⟩, hjoin min max⟩
  · have hvalue : s.current.getD 0 ≤ maxCount :=
      valueFits_of_run (m := .plain) trivial htext
    have hdigit := digitValue_le hc
    unfold maxCount at hvalue
    unfold UInt16.size
    omega

/-- The count `{ 0 2,2 5 5 }` behind `a`, and the text `{0000}`, which has one digit too many. -/
theorem count_iff_writesCount_blanks :
    run .plain [0x61, 0x7B, 0x20, 0x30, 0x20, 0x32, 0x2C, 0x32, 0x20, 0x35, 0x20, 0x35, 0x20,
        0x7D] = .ok (.plain, [.byte 0x61, .count 2 (some 255)]) ∧
      ¬ (∃ min max, WritesCount [0x30, 0x30, 0x30, 0x30] min max) ∧
      tokenize [0x7B, 0x30, 0x30, 0x30, 0x30, 0x7D] = .error .countTooManyDigits := by
  have hbyte : Emits [0x61] [.byte 0x61] := emits_of_plainStep rfl
  have htwo : IsNumeral [0x30, 0x32] 2 :=
    ⟨List.all_eq_true.mp rfl, by decide, by decide, by decide, by decide⟩
  have hmax : IsNumeral [0x32, 0x35, 0x35] 255 :=
    ⟨List.all_eq_true.mp rfl, by decide, by decide, by decide, by decide⟩
  have herror : tokenize [0x7B, 0x30, 0x30, 0x30, 0x30, 0x7D] = .error .countTooManyDigits := rfl
  obtain ⟨hrun, -, -⟩ := @count_iff_writesCount
    [0x20, 0x30, 0x20, 0x32, 0x2C, 0x32, 0x20, 0x35, 0x20, 0x35, 0x20] [0x61] _ hbyte (by decide)
  obtain ⟨-, htokens, -⟩ :=
    @count_iff_writesCount [0x30, 0x30, 0x30, 0x30] [] [] rfl (by decide)
  refine ⟨(hrun _).mpr ⟨2, some 255, .between htwo hmax (by decide), rfl⟩, ?_, herror⟩
  rintro ⟨min, max, hwrites⟩
  have hok := (htokens (by decide) _).mpr ⟨min, max, hwrites, rfl⟩
  cases herror.symm.trans hok

end ByteRegex.Lexer
