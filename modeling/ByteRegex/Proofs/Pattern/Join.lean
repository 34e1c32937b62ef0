import ByteRegex.Proofs.Pattern.Lexer

/-!
# Patterns side by side

Where nothing is left open, one pattern can follow another: the tokens that the lexer emits are put
side by side (`Lexer.Emits.append`). Juxtaposition is made explicit within each of the patterns, and
between them only where an operand begins right after another has ended
(`Token.joinOperands_append`).

A repetition count is written as numerals of up to three digits, whose values may be up to 255
(`Lexer.emits_count`).
-/

namespace ByteRegex

/-! ## Juxtaposition -/

namespace Token

variable {t : Token} {ts us vs : List Token}

/-- What stands between two sequences of tokens: a concatenation, if one ends an operand where the
other begins one. -/
def glue (ts us : List Token) : List Token :=
  if ts.getLast?.any endsOperand && us.head?.any beginsOperand then [.op .concat] else []

theorem glue_nil_right : glue ts [] = [] := by
  rw [glue, List.head?_nil, Option.any_none, Bool.and_false]
  rfl

theorem glue_cons_cons (t u : Token) : glue (t :: u :: ts) us = glue (u :: ts) us := by
  rw [glue, glue, List.getLast?_cons_cons]

theorem glue_append_right (h : us ≠ []) : glue ts (us ++ vs) = glue ts us := by
  cases us with
  | nil => exact absurd rfl h
  | cons u us => rfl

/-- **Juxtaposition is made explicit piece by piece.** -/
theorem joinOperands_append (ts us : List Token) :
    joinOperands (ts ++ us) = joinOperands ts ++ glue ts us ++ joinOperands us := by
  fun_induction joinOperands ts with
  | case1 => rfl
  | case2 t =>
    cases us with
    | nil => rw [glue_nil_right]; rfl
    | cons u us =>
      show joinOperands (t :: u :: us) = _
      rw [joinOperands, glue, List.getLast?_singleton, List.head?_cons, Option.any_some,
        Option.any_some]
      split
      · rfl
      · rfl
  | case3 t u ts hjoin ih =>
    show joinOperands (t :: u :: (ts ++ us)) = _
    rw [joinOperands, if_pos hjoin, glue_cons_cons]
    exact congrArg (t :: .op .concat :: ·) ih
  | case4 t u ts hjoin ih =>
    show joinOperands (t :: u :: (ts ++ us)) = _
    rw [joinOperands, if_neg hjoin, glue_cons_cons]
    exact congrArg (t :: ·) ih

/-- Nothing is put in front of what does not begin an operand. -/
theorem joinOperands_append_of_head (h : ∀ u ∈ us.head?, u.beginsOperand = false) :
    joinOperands (ts ++ us) = joinOperands ts ++ joinOperands us := by
  have hglue : glue ts us = [] := by
    rw [glue, if_neg]
    cases us with
    | nil => simp
    | cons u us => simp [h u rfl]
  rw [joinOperands_append, hglue, List.append_nil]

/-- Nothing is put behind what does not end an operand. -/
theorem joinOperands_cons_of_not_ends (h : t.endsOperand = false) :
    joinOperands (t :: us) = t :: joinOperands us := by
  have hglue : glue [t] us = [] := by
    rw [glue, if_neg]
    simp [h]
  have happend := joinOperands_append [t] us
  rw [hglue, List.append_nil] at happend
  exact happend

end Token

/-! ## Runs of the lexer -/

namespace Lexer

variable {m m' : Mode} {p q ds es : List Byte} {us vs : List Token} {c : Byte}

theorem run_append_of_silent (h : run m p = .ok (m', [])) : run m (p ++ q) = run m' q := by
  rw [run_append, h]
  show (run m' q >>= _) = run m' q
  cases run m' q <;> rfl

theorem run_cons_of_silent (h : step m c = .ok (m', [])) : run m (c :: p) = run m' p := by
  rw [run, h]
  show (run m' p >>= _) = run m' p
  cases run m' p <;> rfl

/-- A run over a text that leaves nothing open emits some tokens. -/
def Emits (p : List Byte) (us : List Token) : Prop := run .plain p = .ok (.plain, us)

theorem Emits.append (hp : Emits p us) (hq : Emits q vs) : Emits (p ++ q) (us ++ vs) := by
  rw [Emits, run_append, hp]
  show (run .plain q >>= _) = _
  rw [hq]
  rfl

theorem emits_of_plainStep {t : Token} (h : plainStep c = (.plain, [t])) : Emits [c] [t] := by
  rw [Emits, run, step, h]
  rfl

theorem Emits.tokenize_eq (h : Emits p us) (hlength : p.length ≤ maxPatternLength) :
    tokenize p = .ok (Token.joinOperands us) :=
  tokenize_eq_ok_iff.mpr ⟨hlength, us, h, rfl⟩

theorem exists_emits_of_tokenize (h : tokenize p = .ok us) :
    ∃ vs, Emits p vs ∧ Token.joinOperands vs = us :=
  (tokenize_eq_ok_iff.mp h).2

/-! ## Repetition counts -/

/-- The value of digits behind those of a number. -/
def decimalFrom (value : Nat) (ds : List Byte) : Nat :=
  ds.foldl (fun value c => value * 10 + c.digitValue) value

/-- Digits write a number that a repetition count may have. -/
structure IsNumeral (ds : List Byte) (n : Nat) : Prop where
  digits : ∀ c ∈ ds, c.isDigit = true
  ne_nil : ds ≠ []
  length_le : ds.length ≤ maxCountDigits
  value_eq : decimalFrom 0 ds = n
  le_max : n ≤ maxCount

theorem decimalFrom_cons (value : Nat) (c : Byte) (ds : List Byte) :
    decimalFrom value (c :: ds) = decimalFrom (value * 10 + c.digitValue) ds := by
  rw [decimalFrom, List.foldl_cons, decimalFrom]

theorem le_decimalFrom (value : Nat) (ds : List Byte) : value ≤ decimalFrom value ds := by
  induction ds generalizing value with
  | nil => exact Nat.le_refl _
  | cons c ds ih => exact Nat.le_trans (by omega) (ih (value * 10 + c.digitValue))

/-- The decimal text of a number. -/
def decimal (n : Nat) : List Byte := (Nat.toDigits 10 n).map fun c => UInt8.ofNat c.toNat

theorem isDigit_ofNat {c : Char} (h : c.isDigit = true) :
    Byte.isDigit (UInt8.ofNat c.toNat) = true ∧
      Byte.digitValue (UInt8.ofNat c.toNat) = c.toNat - '0'.toNat := by
  obtain ⟨hzero, hnine⟩ := Char.isDigit_iff_toNat.mp h
  have hnat : (UInt8.ofNat c.toNat).toNat = c.toNat :=
    UInt8.toNat_ofNat_of_lt' (Nat.lt_of_le_of_lt hnine (by decide))
  rw [Byte.isDigit, Byte.digitValue, hnat, Bool.and_eq_true, decide_eq_true_iff,
    decide_eq_true_iff, UInt8.le_iff_toNat_le, UInt8.le_iff_toNat_le, hnat]
  exact ⟨⟨hzero, hnine⟩, rfl⟩

theorem decimalFrom_map {cs : List Char} (h : ∀ c ∈ cs, c.isDigit = true) (value : Nat) :
    decimalFrom value (cs.map fun c => UInt8.ofNat c.toNat) = Nat.ofDigitChars 10 cs value := by
  induction cs generalizing value with
  | nil => rfl
  | cons c cs ih =>
    obtain ⟨hc, hcs⟩ := List.forall_mem_cons.mp h
    rw [List.map_cons, decimalFrom_cons, ih hcs, (isDigit_ofNat hc).2, Nat.mul_comm]
    rfl

/-- Every number that a count may have is written by its decimal text. -/
theorem isNumeral_decimal {n : Nat} (h : n ≤ maxCount) : IsNumeral (decimal n) n := by
  have hdigits : ∀ c ∈ Nat.toDigits 10 n, c.isDigit = true := fun c hc =>
    Nat.isDigit_of_mem_toDigits (by decide) (by decide) hc
  refine ⟨?_, mt List.map_eq_nil_iff.mp Nat.toDigits_ne_nil, ?_, ?_, h⟩
  · exact List.forall_mem_map.mpr fun c hc => (isDigit_ofNat (hdigits c hc)).1
  · rw [decimal, List.length_map, Nat.length_toDigits_le_iff (by decide) (by decide)]
    exact Nat.lt_of_le_of_lt h (by decide)
  · rw [decimal, decimalFrom_map hdigits, Nat.ofDigitChars_toDigits (by decide) (by decide)]

theorem step_digit {min current : Option Nat} {count : Nat} (hc : c.isDigit = true)
    (hvalue : current.getD 0 * 10 + c.digitValue ≤ maxCount) (hcount : count < maxCountDigits) :
    step (.count ⟨min, current, count⟩) c =
      .ok (.count ⟨min, some (current.getD 0 * 10 + c.digitValue), count + 1⟩, []) := by
  simp only [step, countStep, hc, if_true, CountState.digit]
  rw [if_neg (Nat.not_lt.mpr hvalue), if_neg (Nat.not_lt.mpr hcount)]
  rfl

/-- Digits are read one by one while their number and value are within the limits. -/
theorem run_digits {min current : Option Nat} {count : Nat} (hd : ∀ c ∈ ds, c.isDigit = true)
    (hne : ds ≠ []) (hcount : count + ds.length ≤ maxCountDigits)
    (hvalue : decimalFrom (current.getD 0) ds ≤ maxCount) :
    run (.count ⟨min, current, count⟩) ds =
      .ok (.count ⟨min, some (decimalFrom (current.getD 0) ds), count + ds.length⟩, []) := by
  induction ds generalizing current count with
  | nil => exact absurd rfl hne
  | cons c ds ih =>
    obtain ⟨hc, hd⟩ := List.forall_mem_cons.mp hd
    rw [decimalFrom_cons] at hvalue ⊢
    rw [List.length_cons] at hcount
    rw [run_cons_of_silent (step_digit hc (Nat.le_trans (le_decimalFrom _ ds) hvalue) (by omega))]
    cases ds with
    | nil => rfl
    | cons d ds =>
      have hrest := @ih (some (current.getD 0 * 10 + c.digitValue)) (count + 1) hd (by simp)
        (by omega) hvalue
      rw [hrest, List.length_cons, List.length_cons, Nat.add_right_comm]
      rfl

theorem run_numeral {min : Option Nat} {n : Nat} (h : IsNumeral ds n) :
    run (.count ⟨min, none, 0⟩) ds = .ok (.count ⟨min, some n, ds.length⟩, []) := by
  have hvalue : decimalFrom ((none : Option Nat).getD 0) ds = n := h.value_eq
  rw [run_digits h.digits h.ne_nil (by simpa using h.length_le) (hvalue ▸ h.le_max), hvalue,
    Nat.zero_add]

/-- **A count is written as one numeral and another that is not smaller.** -/
theorem emits_count {n k : Nat} (hn : IsNumeral ds n) (hk : IsNumeral es k) (hnk : n ≤ k) :
    Emits (0x7B :: (ds ++ 0x2C :: (es ++ [0x7D]))) [.count n (some k)] := by
  have hopen : step .plain 0x7B = .ok (.count ⟨none, none, 0⟩, []) := rfl
  have hcomma : step (.count ⟨none, some n, ds.length⟩) 0x2C =
      .ok (.count ⟨some n, none, 0⟩, []) := rfl
  have htoken : CountState.close ⟨some n, some k, es.length⟩ = .ok (.count n (some k)) :=
    if_neg (Nat.not_lt.mpr hnk)
  have hclose : step (.count ⟨some n, some k, es.length⟩) 0x7D =
      .ok (.plain, [.count n (some k)]) :=
    congrArg (Except.map fun t => (Mode.plain, [t])) htoken
  rw [Emits, run_cons_of_silent hopen, run_append_of_silent (run_numeral hn),
    run_cons_of_silent hcomma, run_append_of_silent (run_numeral hk), run, hclose]
  rfl

end Lexer

end ByteRegex
