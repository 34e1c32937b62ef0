import ByteRegex.Proofs.Pattern.Build
import ByteRegex.Proofs.Pattern.Order

/-!
# Streams in which no operand is missing

A stream of tokens is a phrase if its groups close and an operand begins exactly where one has to:
at the start, and after a token that does not end one (`Token.Fits`). The lexer looks at neither. It
only makes juxtaposition explicit, so that no operand begins right after another has ended
(`Token.Joined`). In such a stream operands may be missing, but there are never too many: its
balance is at most that of a stream that fits, and reaches it only if the stream fits
(`Token.Joined.balance_le`, `Token.Joined.fits`).

A stream that fits and closes is a phrase (`Token.Fits.derives`). This is shown from its end, where
what is known of the rest is how it continues any repetition that comes before it
(`Token.Continues`).
-/

namespace ByteRegex

namespace Token

variable {t : Token} {ts us : List Token} {ended ended' : Bool} {opened : Nat}

/-! ## Juxtaposition -/

/-- No operand begins right after another has ended. The flag tells whether one ends before the
stream. -/
def Joined : Bool → List Token → Prop
  | _, [] => True
  | ended, t :: ts => (ended = true → t.beginsOperand = false) ∧ Joined t.endsOperand ts

theorem joined_joinOperands (ts : List Token) (ended : Bool)
    (h : ∀ t ∈ ts.head?, ended = true → t.beginsOperand = false) :
    Joined ended (joinOperands ts) := by
  fun_induction joinOperands ts generalizing ended with
  | case1 => trivial
  | case2 t => exact ⟨h t rfl, trivial⟩
  | case3 t u ts hjoin ih =>
    refine ⟨h t rfl, fun _ => rfl, ih false ?_⟩
    intro _ _ hfalse
    cases hfalse
  | case4 t u ts hjoin ih =>
    refine ⟨h t rfl, ih _ ?_⟩
    intro v hv hended
    cases hv
    simpa [hended] using hjoin

/-! ## Balance -/

/-- An operand begins exactly where one has to, and the last one ends. The flag tells whether one
ends before the stream. -/
def Fits : Bool → List Token → Prop
  | ended, [] => ended = true
  | ended, t :: ts => t.beginsOperand = !ended ∧ Fits t.endsOperand ts

/-- The balance of a stream that fits. -/
def fullBalance (ended : Bool) : Int := if ended then 0 else 1

theorem weight_add_fullBalance (h : ended = true → t.beginsOperand = false) :
    t.weight + fullBalance t.endsOperand ≤ fullBalance ended ∧
      (t.weight + fullBalance t.endsOperand = fullBalance ended → t.beginsOperand = !ended) := by
  cases t with
  | op o => cases o <;> cases ended <;> decide
  | closeGroup => cases ended <;> decide
  | count _ _ =>
    cases ended <;> simp [weight, role, fullBalance, endsOperand, beginsOperand, isAtom]
  | _ =>
    cases ended with
    | false => simp [weight, role, fullBalance, endsOperand, beginsOperand, isAtom]
    | true => cases h rfl

/-- **Where juxtaposition is explicit, there are never too many operands.** -/
theorem Joined.balance_le (h : Joined ended ts) : balance ts ≤ fullBalance ended := by
  induction ts generalizing ended with
  | nil => cases ended <;> decide
  | cons t ts ih =>
    have hrest := ih h.2
    have hfirst := (weight_add_fullBalance h.1).1
    rw [balance_cons]
    omega

/-- **Where there are as many operands as there can be, none is missing.** -/
theorem Joined.fits (h : Joined ended ts) (hb : balance ts = fullBalance ended) :
    Fits ended ts := by
  induction ts generalizing ended with
  | nil =>
    cases ended with
    | false => cases hb
    | true => rfl
  | cons t ts ih =>
    rw [balance_cons] at hb
    have hrest := h.2.balance_le
    obtain ⟨hfirst, hbegins⟩ := weight_add_fullBalance h.1
    exact ⟨hbegins (by omega), ih h.2 (by omega)⟩

/-! ## Derivations -/

/-- How a stream goes on: as alternatives of its own, or, if an operand ends before it, with any
repetition in front of it. -/
def Continues : Bool → List Token → Prop
  | false, us => ∃ s, Derives .alternatives us s
  | true, us => ∀ vs a, Derives .repetition vs a → ∃ s, Derives .alternatives (vs ++ us) s

/-- How a stream goes on up to the mark that closes the innermost open group, and after it. -/
def ContinuesIn : Bool → Nat → List Token → Prop
  | ended, 0, ts => Continues ended ts
  | ended, opened + 1, ts =>
    ∃ us rest, ts = us ++ closeGroup :: rest ∧ Continues ended us ∧ ContinuesIn true opened rest

theorem ContinuesIn.append_left (vs : List Token) (h : ContinuesIn ended opened ts)
    (hc : ∀ us, Continues ended us → Continues ended' (vs ++ us)) :
    ContinuesIn ended' opened (vs ++ ts) := by
  cases opened with
  | zero => exact hc ts h
  | succ opened =>
    obtain ⟨us, rest, rfl, hus, hrest⟩ := h
    exact ⟨vs ++ us, rest, (List.append_assoc _ _ _).symm, hc us hus, hrest⟩

theorem continues_nil : Continues true [] := by
  intro vs a ha
  rw [List.append_nil]
  exact ⟨a, .sequence (.repetition ha)⟩

/-- A primary in front of what continues it. -/
theorem Continues.primary {vs : List Token} {a : TokenTree} (h : Continues true us)
    (ha : Derives .primary vs a) : Continues false (vs ++ us) :=
  h vs a (.primary ha)

theorem Continues.unary (h : Continues true us) (ht : t.role = .unary) :
    Continues true (t :: us) := by
  intro vs a ha
  obtain ⟨s, hs⟩ := h (vs ++ [t]) _ (.unary ht ha)
  rw [List.append_assoc] at hs
  exact ⟨s, hs⟩

theorem Continues.binary {o : Operator} (h : Continues false us) (ho : (op o).role = .binary) :
    Continues true (op o :: us) := by
  intro vs a ha
  obtain ⟨s, hs⟩ := h
  cases o with
  | alternation => exact ⟨_, .alternation (.inl rfl) (.repetition ha) hs⟩
  | bracketAlternation => exact ⟨_, .alternation (.inr rfl) (.repetition ha) hs⟩
  | concat =>
    -- the repetition joins the first sequence of the alternatives
    cases hs with
    | sequence hs => exact ⟨_, .sequence (.concat ha hs)⟩
    | alternation hq hs hu =>
      have hs := Derives.alternation hq (Derives.concat ha hs) hu
      rw [List.append_assoc] at hs
      exact ⟨_, hs⟩
  | plus | star | opt => cases ho

theorem ends_of_operand (ht : t.role = .operand) :
    t.beginsOperand = true ∧ t.endsOperand = true := by
  cases t with
  | op o => cases o <;> cases ht
  | count _ _ | openGroup | closeGroup => cases ht
  | _ => exact ⟨rfl, rfl⟩

theorem ends_of_unary (ht : t.role = .unary) :
    t.beginsOperand = false ∧ t.endsOperand = true := by
  cases t with
  | op o => cases o <;> first | exact ⟨rfl, rfl⟩ | cases ht
  | count _ _ => exact ⟨rfl, rfl⟩
  | _ => cases ht

theorem ends_of_binary (ht : t.role = .binary) :
    t.beginsOperand = false ∧ t.endsOperand = false := by
  cases t with
  | op o => cases o <;> first | exact ⟨rfl, rfl⟩ | cases ht
  | _ => cases ht

/-- What a stream that fits and closes is up to the end of each group that is open. -/
theorem Fits.continuesIn (h : Fits ended ts) (hc : Closes opened ts) :
    ContinuesIn ended opened ts := by
  induction ts generalizing ended opened with
  | nil =>
    obtain rfl : opened = 0 := hc
    obtain rfl : ended = true := h
    exact continues_nil
  | cons t ts ih =>
    obtain ⟨hbegins, hts⟩ := h
    cases hrole : t.role with
    | operand =>
      obtain ⟨hb, he⟩ := ends_of_operand hrole
      obtain rfl : ended = false := by simpa [hb] using hbegins
      rw [he] at hts
      rw [closes_cons (by simp [hrole])] at hc
      exact (ih hts hc).append_left [t] fun us hus => hus.primary (.atom hrole)
    | unary =>
      obtain ⟨hb, he⟩ := ends_of_unary hrole
      obtain rfl : ended = true := by simpa [hb] using hbegins
      rw [he] at hts
      rw [closes_cons (by simp [hrole])] at hc
      exact (ih hts hc).append_left [t] fun us hus => hus.unary hrole
    | binary =>
      obtain ⟨hb, he⟩ := ends_of_binary hrole
      obtain rfl : ended = true := by simpa [hb] using hbegins
      obtain ⟨o, rfl⟩ := exists_operator_of_role hrole
      rw [he] at hts
      rw [closes_cons (by simp [hrole])] at hc
      exact (ih hts hc).append_left [op o] fun us hus => hus.binary hrole
    | groupMark =>
      rcases eq_mark_of_role hrole with rfl | rfl
      · obtain rfl : ended = false := by simpa [beginsOperand] using hbegins
        -- what the group holds is all that comes before its end
        obtain ⟨us, rest, rfl, ⟨s, hs⟩, hrest⟩ := ih hts hc
        rw [← List.cons_append, List.append_cons]
        exact hrest.append_left _ fun vs hvs => hvs.primary (.group hs)
      · obtain rfl : ended = true := by simpa [beginsOperand, isAtom] using hbegins
        obtain ⟨hpos, hc⟩ := hc
        obtain ⟨opened, rfl⟩ := Nat.exists_eq_add_one_of_ne_zero hpos.ne'
        exact ⟨[], ts, rfl, continues_nil, ih hts hc⟩

/-- **A stream that fits and closes is a phrase.** -/
theorem Fits.derives (h : Fits false ts) (hc : Closes 0 ts) : ∃ s, Derives .alternatives ts s :=
  h.continuesIn hc

end Token

end ByteRegex
