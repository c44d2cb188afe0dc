import Amalgam.Proofs.Literal.Meaning

/-!
# Numbers and names are read up to what follows them

What a reader takes off the front of a text does not depend on what follows, as long as that begins alike or with a character
that nothing can continue with (`Literal.Follows`). Readers with this property are *local*; so are the readers of numbers, and
what they take holds no quote, no bracket, no comment and no line end (`Literal.local_number`).
-/

namespace Amalgam.Literal

open Amalgam.Document.Number (digitValue? ofDigits ofDigitsIn? ofParts)

/-! ## Blanks, line ends and comments -/

theorem suffix_gaps (inComment : Bool) (cs : List Char) : gaps inComment cs <:+ cs := by
  fun_induction gaps inComment cs with
  | case1 c rest _ ih => exact ih.trans (List.suffix_cons c rest)
  | case2 c rest _ ih => exact ih.trans (List.suffix_cons c rest)
  | case3 rest ih => exact ih.trans ⟨['\\', '\r', '\n'], rfl⟩
  | case4 rest _ ih => exact ih.trans ⟨['\\', '\r'], rfl⟩
  | case5 rest ih => exact ih.trans ⟨['\\', '\n'], rfl⟩
  | case6 rest ih => exact ih.trans (List.suffix_cons _ rest)
  | case7 c rest _ _ _ _ _ ih => exact ih.trans (List.suffix_cons c rest)
  | case8 => exact List.suffix_rfl
  | case9 => exact List.suffix_rfl

theorem suffix_blanks (cs : List Char) : blanks cs <:+ cs := by
  fun_induction blanks cs with
  | case1 c rest ih => exact ih.trans ⟨['\\', '\r', '\n'], rfl⟩
  | case2 => exact List.suffix_rfl
  | case3 c rest _ _ ih => exact ih.trans ⟨['\\', '\r'], rfl⟩
  | case4 c rest ih => exact ih.trans ⟨['\\', '\n'], rfl⟩
  | case5 c rest _ _ _ _ ih => exact ih.trans (List.suffix_cons c rest)
  | case6 => exact List.suffix_rfl
  | case7 => exact List.suffix_rfl

theorem suffix_trivia (inside : Bool) (cs : List Char) : trivia inside cs <:+ cs := by
  cases inside
  · exact suffix_blanks cs
  · exact suffix_gaps false cs
theorem length_gaps_le (inComment : Bool) (cs : List Char) : (gaps inComment cs).length ≤ cs.length := (suffix_gaps inComment cs).length_le

theorem length_trivia_le (inside : Bool) (cs : List Char) : (trivia inside cs).length ≤ cs.length := (suffix_trivia inside cs).length_le

/-! ## What may follow -/

/-- Characters that continue neither a number nor a name nor a quoted text. -/
def quiet : List Char := [' ', '\t', '\x0c', '\\', '#', '\n', '\r', ',', ')']

/-- A text that may follow in the place of another: it begins with the same character or with a quiet one. -/
def Follows (r r' : List Char) : Prop := ∀ c ∈ r'.head?, c ∈ quiet ∨ r.head? = some c

section Follows

variable {r r' : List Char}

theorem Follows.of_head_eq (h : r'.head? = r.head?) : Follows r r' := fun _ hc => Or.inr (h ▸ hc)

theorem Follows.append (h : Follows r r') (t : List Char) : Follows (t ++ r) (t ++ r') := by
  cases t with
  | nil => exact h
  | cons c t => exact Follows.of_head_eq rfl

/-- What the first character is not, and no quiet one is, the first character of what follows instead is not either. -/
theorem Follows.head {P : Char → Prop} (h : Follows r r') (hquiet : ∀ c ∈ quiet, ¬P c) (hr : ∀ c ∈ r.head?, ¬P c) :
    ∀ c ∈ r'.head?, ¬P c := fun c hc => (h c hc).elim (hquiet c) (hr c)

end Follows

/-! ## Local readers -/

/-- Characters that begin or end something within a literal: quotes, brackets, comments, line ends and continued lines. -/
def special : List Char := ['\\', '\n', '\r', '\'', '"', '#', '(', '[', '{', ')', ']', '}']

variable {α β : Type}

/-- A reader takes the front of a text, none of it special, and would take it whatever followed instead of the rest. -/
def Takes (read : List Char → Option (α × List Char)) (cs r : List Char) (a : α) : Prop :=
  ∃ t, cs = t ++ r ∧ (∀ c ∈ t, c ∉ special) ∧ ∀ r', Follows r r' → read (t ++ r') = some (a, r')

/-- A reader whose result depends only on what it takes. -/
def IsLocal (read : List Char → Option (α × List Char)) : Prop :=
  ∀ ⦃cs r : List Char⦄ ⦃a : α⦄, read cs = some (a, r) → Takes read cs r a

section Takes

variable {read : List Char → Option (α × List Char)} {cs r : List Char} {a : α}

/-- Nothing is taken where a character stops the reader, and no quiet character goes on. -/
theorem takes_nothing {P : Char → Prop} (hquiet : ∀ c ∈ quiet, ¬P c) (hr : ∀ c ∈ r.head?, ¬P c)
    (h : ∀ r, (∀ c ∈ r.head?, ¬P c) → read r = some (a, r)) : Takes read r r a :=
  ⟨[], rfl, fun _ h => (List.not_mem_nil h).elim, fun _ hr' => h _ (hr'.head hquiet hr)⟩

/-- One character is taken, and then what another reader takes. -/
theorem Takes.cons {next : List Char → Option (α × List Char)} {c : Char} (h : Takes next cs r a) (hc : c ∉ special)
    (hread : ∀ x, read (c :: x) = next x) : Takes read (c :: cs) r a := by
  obtain ⟨t, rfl, ht, hlocal⟩ := h
  refine ⟨c :: t, rfl, ?_, fun r' hr' => (hread _).trans (hlocal r' hr')⟩
  rintro d (_ | ⟨_, hd⟩)
  · exact hc
  · exact ht d hd

theorem Takes.length_le (h : Takes read cs r a) : r.length ≤ cs.length := by
  obtain ⟨t, rfl, -, -⟩ := h
  simp

end Takes

/-- One local reader after another is local. -/
theorem IsLocal.bind {read : List Char → Option (α × List Char)} {next : α → List Char → Option (β × List Char)}
    (h : IsLocal read) (hnext : ∀ a, IsLocal (next a)) : IsLocal fun cs => (read cs).bind fun x => next x.1 x.2 := by
  intro cs r b hread
  obtain ⟨⟨a, m⟩, hm, hb⟩ := Option.bind_eq_some_iff.1 hread
  obtain ⟨t, rfl, ht, hlocal⟩ := h hm
  obtain ⟨u, rfl, hu, hlocal'⟩ := hnext a hb
  refine ⟨t ++ u, (List.append_assoc t u r).symm, ?_, fun r' hr' => ?_⟩
  · intro c hc
    exact (List.mem_append.1 hc).elim (ht c) (hu c)
  · rw [List.append_assoc]
    exact Option.bind_eq_some_iff.2 ⟨(a, u ++ r'), hlocal _ (hr'.append u), hlocal' r' hr'⟩

/-! ## Digits -/

/-- A kind of digits, none of them special or quiet. -/
structure IsDigits (digit : Char → Bool) : Prop where
  special : ∀ c ∈ special, digit c = false
  quiet : ∀ c ∈ quiet, digit c = false

theorem isDigits_isDigit : IsDigits Char.isDigit := ⟨by decide, by decide⟩

/-- Whether a character is a digit in some base. -/
def isDigitIn (base : Nat) (c : Char) : Bool := ((digitValue? c).map fun d => decide (d < base)).getD false

theorem isDigits_isDigitIn (base : Nat) : IsDigits (isDigitIn base) := by
  have hspecial : ∀ c ∈ special, digitValue? c = none := by decide
  have hquiet : ∀ c ∈ quiet, digitValue? c = none := by decide
  refine ⟨fun c hc => ?_, fun c hc => ?_⟩
  · rw [isDigitIn, hspecial c hc]
    rfl
  · rw [isDigitIn, hquiet c hc]
    rfl

section Digits

variable {digit : Char → Bool} (hdigit : IsDigits digit)

/-- Nothing is taken where no digit and no underscore stands. -/
theorem digitRun?_of_stop {r : List Char} (hr : ∀ c ∈ r.head?, ¬(c = '_' ∨ digit c = true)) (acc : List Char) :
    digitRun? digit acc r = some (acc.reverse, r) := by
  cases r with
  | nil => rfl
  | cons d r =>
    obtain ⟨hunder, hd⟩ := not_or.1 (hr d rfl)
    rw [digitRun?, if_neg (by simpa using hunder), if_neg hd]
    rintro _ _ rfl -
    exact hunder rfl

include hdigit

theorem IsDigits.not_mem_special {c : Char} (h : digit c = true) : c ∉ Literal.special := fun hmem => by
  rw [hdigit.special c hmem] at h
  cases h

theorem IsDigits.quiet_stop : ∀ c ∈ Literal.quiet, ¬(c = '_' ∨ digit c = true) := by
  intro c hc
  refine not_or.2 ⟨?_, by rw [hdigit.quiet c hc]; exact Bool.false_ne_true⟩
  rintro rfl
  exact absurd hc (by decide)

/-- Digits are taken as long as there are any. -/
theorem IsDigits.isLocal_run (acc : List Char) : IsLocal (digitRun? digit acc) := by
  intro cs r ds h
  fun_induction digitRun? digit acc cs with
  | case1 acc c rest hc ih =>
    have hrest : Takes (fun x => digitRun? digit acc ('_' :: x)) (c :: rest) r ds :=
      (ih h).cons (hdigit.not_mem_special hc) fun x => by rw [digitRun?, if_pos hc]
    exact hrest.cons (by decide) fun x => rfl
  | case2 => cases h
  | case3 => cases h
  | case4 acc c rest hline hunder hc ih =>
    refine (ih h).cons (hdigit.not_mem_special hc) fun x => ?_
    rw [digitRun?, if_neg hunder, if_pos hc]
    rintro _ _ rfl -
    exact hunder rfl
  | case5 acc c rest hline hunder hc =>
    cases h
    refine takes_nothing hdigit.quiet_stop ?_ fun r hr => digitRun?_of_stop hr acc
    rintro d ⟨⟩
    exact not_or.2 ⟨fun heq => hunder (beq_iff_eq.2 heq), hc⟩
  | case6 acc =>
    cases h
    exact takes_nothing hdigit.quiet_stop (fun _ h => by cases h) fun r hr => digitRun?_of_stop hr acc

theorem IsDigits.isLocal : IsLocal (digits? digit) := by
  intro cs r ds h
  cases cs with
  | nil => cases h
  | cons c cs =>
    rw [digits?] at h
    split at h
    · rename_i hc
      exact (hdigit.isLocal_run [c] h).cons (hdigit.not_mem_special hc) fun x => if_pos hc
    · cases h

theorem IsDigits.length_lt {cs ds r : List Char} (h : digits? digit cs = some (ds, r)) : r.length < cs.length := by
  cases cs with
  | nil => cases h
  | cons c cs =>
    rw [digits?] at h
    split at h
    · exact Nat.lt_succ_of_le (hdigit.isLocal_run [c] h).length_le
    · cases h

end Digits

/-! ## Numbers -/

/-- Whether a character would continue a name. -/
def continuesName (c : Char) : Prop := (c.isAlphanum || c == '_' || c.toNat ≥ 128) = true

theorem runsOn_eq_false {r : List Char} : runsOn r = false ↔ ∀ c ∈ r.head?, ¬continuesName c := by
  cases r with
  | nil => simp [runsOn]
  | cons c r => simp [runsOn, continuesName]

theorem quiet_not_continuesName : ∀ c ∈ quiet, ¬continuesName c := by
  unfold continuesName
  decide

/-- The end of a number: it does not run into a name. -/
def numberEnd? (v : Option Value) (cs : List Char) : Option (Value × List Char) :=
  if runsOn cs then none else v.map fun v => (v, cs)

theorem isLocal_numberEnd (v : Option Value) : IsLocal (numberEnd? v) := by
  intro cs r w h
  unfold numberEnd? at h
  split at h
  · cases h
  · rename_i hruns
    obtain ⟨w, rfl, heq⟩ := Option.map_eq_some_iff.1 h
    cases heq
    refine takes_nothing quiet_not_continuesName (runsOn_eq_false.1 (Bool.eq_false_iff.2 hruns)) fun r hr => ?_
    rw [numberEnd?, runsOn_eq_false.2 hr]
    rfl

/-- An underscore that may stand behind the mark of a base. -/
def underscore? : List Char → Option (Unit × List Char)
  | '_' :: rest => some ((), rest)
  | cs => some ((), cs)

theorem isLocal_underscore : IsLocal underscore? := by
  intro cs r u h
  unfold underscore? at h
  split at h
  · cases h
    exact ⟨['_'], rfl, by decide, fun r' _ => rfl⟩
  · rename_i hline
    cases h
    refine takes_nothing (P := (· = '_')) (by decide) ?_ fun r hr => ?_
    · rintro c hc rfl
      obtain ⟨more, rfl⟩ := List.head?_eq_some_iff.1 hc
      exact hline _ rfl
    · unfold underscore?
      split
      · exact absurd rfl (hr '_' rfl)
      · rfl

theorem underscore?_eq (cs : List Char) : underscore? cs = some ((), match cs with
    | '_' :: rest => rest
    | _ => cs) := by
  unfold underscore?
  split <;> rfl

theorem basedNumber?_eq (base : Nat) (cs : List Char) : basedNumber? base cs =
    (underscore? cs).bind fun x => (digits? (isDigitIn base) x.2).bind fun y =>
      numberEnd? ((ofDigitsIn? base y.1).map fun n => .int n) y.2 := by
  rw [underscore?_eq]
  unfold basedNumber?
  simp only [Option.bind_some]
  change (digits? (isDigitIn base) _).bind _ = _
  congr 1
  funext x
  obtain ⟨ds, rest⟩ := x
  unfold numberEnd?
  cases ofDigitsIn? base ds <;> simp

theorem isLocal_basedNumber (base : Nat) : IsLocal (basedNumber? base) := by
  rw [show basedNumber? base = _ from funext (basedNumber?_eq base)]
  exact isLocal_underscore.bind fun _ => (isDigits_isDigitIn base).isLocal.bind fun ds =>
    isLocal_numberEnd ((ofDigitsIn? base ds).map fun n => .int n)

/-- The digits behind a point. -/
def fractionDigits? : List Char → Option (List Char × List Char)
  | c :: more => if c.isDigit then digits? Char.isDigit (c :: more) else some ([], c :: more)
  | [] => some ([], [])

theorem isLocal_fractionDigits : IsLocal fractionDigits? := by
  have hstop : ∀ r : List Char, (∀ c ∈ r.head?, ¬c.isDigit = true) → fractionDigits? r = some ([], r) := by
    rintro (_ | ⟨d, r⟩) hr
    · rfl
    · exact if_neg (hr d rfl)
  have hquiet : ∀ c ∈ quiet, ¬c.isDigit = true := by decide
  intro cs r ds h
  cases cs with
  | nil =>
    cases h
    exact takes_nothing hquiet (fun _ h => by cases h) hstop
  | cons c cs =>
    rw [fractionDigits?] at h
    split at h
    · rename_i hc
      rw [digits?, if_pos hc] at h
      refine (isDigits_isDigit.isLocal_run [c] h).cons (isDigits_isDigit.not_mem_special hc) fun x => ?_
      rw [fractionDigits?, if_pos hc, digits?, if_pos hc]
    · rename_i hc
      cases h
      exact takes_nothing hquiet (by rintro d ⟨⟩; exact hc) hstop

/-- A point and the digits behind it, if there is one. -/
def fraction? : List Char → Option ((Bool × List Char) × List Char)
  | '.' :: more => (fractionDigits? more).map fun x => ((true, x.1), x.2)
  | cs => some ((false, []), cs)

theorem isLocal_fraction : IsLocal fraction? := by
  intro cs r ds h
  unfold fraction? at h
  split at h
  · rename_i more
    obtain ⟨⟨ds, rest⟩, hds, heq⟩ := Option.map_eq_some_iff.1 h
    cases heq
    obtain ⟨t, rfl, ht, hlocal⟩ := isLocal_fractionDigits hds
    refine ⟨'.' :: t, rfl, List.forall_mem_cons.2 ⟨by decide, ht⟩, fun r' hr' => ?_⟩
    exact Option.map_eq_some_iff.2 ⟨_, hlocal r' hr', rfl⟩
  · rename_i hpoint
    cases h
    refine takes_nothing (P := (· = '.')) (by decide) ?_ fun r hr => ?_
    · rintro c hc rfl
      obtain ⟨more, rfl⟩ := List.head?_eq_some_iff.1 hc
      exact hpoint _ rfl
    · unfold fraction?
      split
      · exact absurd rfl (hr '.' rfl)
      · rfl

/-- The digits of an exponent, with their sign. -/
def exponent? : List Char → Option (Int × List Char)
  | '-' :: more => (digits? Char.isDigit more).map fun x => (-(ofDigits x.1 : Int), x.2)
  | '+' :: more => (digits? Char.isDigit more).map fun x => ((ofDigits x.1 : Int), x.2)
  | cs => (digits? Char.isDigit cs).map fun x => ((ofDigits x.1 : Int), x.2)

theorem exponent?_of_ne {cs : List Char} (hminus : ∀ more, cs ≠ '-' :: more) (hplus : ∀ more, cs ≠ '+' :: more) :
    exponent? cs = (digits? Char.isDigit cs).map fun x => ((ofDigits x.1 : Int), x.2) := by
  unfold exponent?
  split
  · exact absurd rfl (hminus _)
  · exact absurd rfl (hplus _)
  · rfl

theorem isLocal_exponent : IsLocal exponent? := by
  intro cs r e h
  unfold exponent? at h
  split at h
  · obtain ⟨⟨ds, rest⟩, hds, heq⟩ := Option.map_eq_some_iff.1 h
    cases heq
    obtain ⟨t, rfl, ht, hlocal⟩ := isDigits_isDigit.isLocal hds
    exact ⟨'-' :: t, rfl, List.forall_mem_cons.2 ⟨by decide, ht⟩, fun r' hr' => Option.map_eq_some_iff.2 ⟨_, hlocal r' hr', rfl⟩⟩
  · obtain ⟨⟨ds, rest⟩, hds, heq⟩ := Option.map_eq_some_iff.1 h
    cases heq
    obtain ⟨t, rfl, ht, hlocal⟩ := isDigits_isDigit.isLocal hds
    exact ⟨'+' :: t, rfl, List.forall_mem_cons.2 ⟨by decide, ht⟩, fun r' hr' => Option.map_eq_some_iff.2 ⟨_, hlocal r' hr', rfl⟩⟩
  · rename_i hminus hplus
    obtain ⟨⟨ds, rest⟩, hds, heq⟩ := Option.map_eq_some_iff.1 h
    cases heq
    have hlength := isDigits_isDigit.length_lt hds
    obtain ⟨t, rfl, ht, hlocal⟩ := isDigits_isDigit.isLocal hds
    refine ⟨t, rfl, ht, fun r' hr' => ?_⟩
    -- at least one digit is taken, so that no sign stands in front
    obtain ⟨c, t, rfl⟩ := List.exists_cons_of_ne_nil (show t ≠ [] by rintro rfl; exact absurd hlength (Nat.lt_irrefl _))
    rw [List.cons_append, exponent?_of_ne (fun _ heq => hminus (t ++ rest) (by rw [← (List.cons.inj heq).1]; rfl))
      fun _ heq => hplus (t ++ rest) (by rw [← (List.cons.inj heq).1]; rfl)]
    exact Option.map_eq_some_iff.2 ⟨_, hlocal r' hr', rfl⟩

theorem power?_cons (c : Char) (cs : List Char) : power? (c :: cs) = if c == 'e' || c == 'E' then some (exponent? cs) else none := by
  unfold power?
  dsimp only
  split
  · refine congrArg some ?_
    split
    · rfl
    · rfl
    · rename_i hminus hplus
      exact (exponent?_of_ne hminus hplus).symm
  · rfl

/-- The exponent of a number, if one is written, and whether one is. -/
def scale? (cs : List Char) : Option ((Int × Bool) × List Char) :=
  match power? cs with
  | none => some ((0, false), cs)
  | some none => none
  | some (some (e, rest)) => some ((e, true), rest)

theorem isLocal_scale : IsLocal scale? := by
  have hstop : ∀ r : List Char, (∀ c ∈ r.head?, ¬(c == 'e' || c == 'E') = true) → scale? r = some ((0, false), r) := by
    rintro (_ | ⟨d, r⟩) hr
    · rfl
    · rw [scale?, power?_cons, if_neg (hr d rfl)]
  have hquiet : ∀ c ∈ quiet, ¬(c == 'e' || c == 'E') = true := by decide
  intro cs r x h
  cases cs with
  | nil =>
    cases h
    exact takes_nothing hquiet (fun _ h => by cases h) hstop
  | cons c cs =>
    rw [scale?, power?_cons] at h
    by_cases hc : (c == 'e' || c == 'E') = true
    · rw [if_pos hc] at h
      cases he : exponent? cs with
      | none =>
        rw [he] at h
        cases h
      | some y =>
        rw [he] at h
        cases h
        obtain ⟨t, rfl, ht, hlocal⟩ := isLocal_exponent he
        refine ⟨c :: t, rfl, List.forall_mem_cons.2 ⟨?_, ht⟩, fun r' hr' => ?_⟩
        · have : c = 'e' ∨ c = 'E' := by simpa using hc
          rcases this with rfl | rfl <;> decide
        · rw [List.cons_append, scale?, power?_cons, if_pos hc, hlocal r' hr']
    · rw [if_neg hc] at h
      cases h
      exact takes_nothing hquiet (by rintro d ⟨⟩; exact hc) hstop

/-- The end of a decimal number: an imaginary one is marked. -/
def decimalEnd? (imaginary : Value) (plain : Option Value) : List Char → Option (Value × List Char)
  | 'j' :: rest => numberEnd? (some imaginary) rest
  | 'J' :: rest => numberEnd? (some imaginary) rest
  | cs => numberEnd? plain cs

theorem isLocal_decimalEnd (imaginary : Value) (plain : Option Value) : IsLocal (decimalEnd? imaginary plain) := by
  intro cs r v h
  unfold decimalEnd? at h
  split at h
  · exact (isLocal_numberEnd _ h).cons (by decide) fun _ => rfl
  · exact (isLocal_numberEnd _ h).cons (by decide) fun _ => rfl
  · unfold numberEnd? at h
    split at h
    · cases h
    · rename_i hruns
      obtain ⟨w, rfl, heq⟩ := Option.map_eq_some_iff.1 h
      cases heq
      refine takes_nothing quiet_not_continuesName (runsOn_eq_false.1 (Bool.eq_false_iff.2 hruns)) fun r hr => ?_
      unfold decimalEnd?
      split
      · exact absurd rfl (hr 'j' rfl)
      · exact absurd rfl (hr 'J' rfl)
      · rw [numberEnd?, runsOn_eq_false.2 hr]
        rfl

/-- What a number without an imaginary mark is; leading zeros are for zero only. -/
def plainNumber? (whole fraction : List Char) (pointed : Bool) (scale : Int × Bool) : Option Value :=
  if pointed || scale.2 then some (.float (ofParts whole fraction scale.1))
  else if ofDigits whole = 0 then some (.int 0)
  else if whole.head? = some '0' || whole.length > 4300 then none
  else some (.int (ofDigits whole))

/-- What follows the digits of a decimal number. -/
def decimalTail? (whole fraction : List Char) (pointed : Bool) (cs : List Char) : Option (Value × List Char) :=
  if whole.isEmpty && fraction.isEmpty then none
  else (scale? cs).bind fun x =>
    decimalEnd? (.complex 0.0 (ofParts whole fraction x.1.1)) (plainNumber? whole fraction pointed x.1) x.2

theorem isLocal_decimalTail (whole fraction : List Char) (pointed : Bool) : IsLocal (decimalTail? whole fraction pointed) := by
  unfold decimalTail?
  split
  · intro _ _ _ h
    cases h
  · exact isLocal_scale.bind fun x =>
      isLocal_decimalEnd (.complex 0.0 (ofParts whole fraction x.1)) (plainNumber? whole fraction pointed x)

/-- What follows the whole digits of a decimal number. -/
def decimalRest? (whole cs : List Char) : Option (Value × List Char) :=
  (fraction? cs).bind fun x => decimalTail? whole x.1.2 x.1.1 x.2

theorem isLocal_decimalRest (whole : List Char) : IsLocal (decimalRest? whole) :=
  isLocal_fraction.bind fun _ => isLocal_decimalTail _ _ _

theorem decimalEnd?_plain (imaginary : Value) (whole fraction : List Char) (pointed scaled : Bool) (exponent : Int) (cs : List Char) :
    decimalEnd? imaginary (plainNumber? whole fraction pointed (exponent, scaled)) cs =
      match cs with
      | 'j' :: rest => if runsOn rest then none else some (imaginary, rest)
      | 'J' :: rest => if runsOn rest then none else some (imaginary, rest)
      | _ =>
        if runsOn cs then none
        else if pointed || scaled then some (.float (ofParts whole fraction exponent), cs)
        else if ofDigits whole = 0 then some (.int 0, cs)
        else if whole.head? = some '0' || whole.length > 4300 then none
        else some (.int (ofDigits whole), cs) := by
  unfold decimalEnd?
  split
  · rfl
  · rfl
  · unfold numberEnd? plainNumber?
    split
    · rfl
    · split
      · rfl
      · split
        · rfl
        · split <;> rfl

theorem decimalNumber?_eq (cs : List Char) : decimalNumber? cs =
    if cs.head? = some '.' then decimalRest? [] cs else (digits? Char.isDigit cs).bind fun x => decimalRest? x.1 x.2 := by
  unfold decimalNumber?
  extract_lets K
  have hK : ∀ whole rest, K (whole, rest) = decimalRest? whole rest := by
    intro whole rest
    dsimp -zeta only [K]
    extract_lets n J
    have hJ : ∀ pointed fraction rest, J (pointed, fraction, rest) = decimalTail? whole fraction pointed rest := by
      intro pointed fraction rest
      dsimp -zeta only [J]
      unfold decimalTail?
      split
      · rfl
      extract_lets L
      have hL : ∀ e scaled rest, L (e, scaled, rest) = decimalEnd? (.complex 0.0 (ofParts whole fraction e))
          (plainNumber? whole fraction pointed (e, scaled)) rest := fun e scaled rest =>
        (decimalEnd?_plain _ whole fraction pointed scaled e rest).symm
      unfold scale?
      generalize power? rest = power
      rcases power with _ | _ | ⟨e, more⟩
      · exact hL _ _ _
      · rfl
      · exact hL _ _ _
    clear_value J
    unfold decimalRest? fraction?
    split
    · rename_i c more
      show _ = Option.bind (Option.map _ (fractionDigits? (c :: more))) _
      rw [Option.bind_map, fractionDigits?]
      split
      · change Option.bind (Option.map _ _) _ = _
        rw [Option.bind_map]
        congr 1
        funext ⟨ds, rest⟩
        exact hJ _ _ _
      · exact hJ _ _ _
    · exact hJ _ _ _
    · rename_i hpoint hend
      split
      · rename_i more
        cases more with
        | nil => exact (hend rfl).elim
        | cons c more => exact (hpoint _ _ rfl).elim
      · exact hJ _ _ _
  rw [show K = fun x => decimalRest? x.1 x.2 from funext fun x => hK x.1 x.2]
  split
  · exact (if_pos rfl).symm
  · rename_i hpoint
    rw [if_neg fun h => (List.head?_eq_some_iff.1 h).elim hpoint]
    rfl

/-- A number that begins with a digit or a point is read up to what follows. -/
theorem isLocal_decimalNumber : IsLocal decimalNumber? := by
  intro cs r v h
  rw [decimalNumber?_eq] at h
  split at h
  · rename_i hpoint
    obtain ⟨more, rfl⟩ := List.head?_eq_some_iff.1 hpoint
    obtain ⟨x, hx, htail⟩ := Option.bind_eq_some_iff.1 h
    obtain ⟨y, hy, rfl⟩ := Option.map_eq_some_iff.1 hx
    have hlocal : IsLocal fun cs => (fractionDigits? cs).bind fun y => decimalTail? [] y.1 true y.2 :=
      isLocal_fractionDigits.bind fun ds => isLocal_decimalTail [] ds true
    refine (hlocal (Option.bind_eq_some_iff.2 ⟨y, hy, htail⟩)).cons (by decide) fun x => ?_
    rw [decimalNumber?_eq, if_pos (List.head?_cons ..)]
    show ((fractionDigits? x).map _).bind _ = _
    rw [Option.bind_map]
    rfl
  · rename_i hpoint
    have hlength : r.length < cs.length := by
      obtain ⟨x, hx, hrest⟩ := Option.bind_eq_some_iff.1 h
      exact Nat.lt_of_le_of_lt (isLocal_decimalRest _ hrest).length_le (isDigits_isDigit.length_lt hx)
    have hlocal : IsLocal fun cs => (digits? Char.isDigit cs).bind fun x => decimalRest? x.1 x.2 :=
      isDigits_isDigit.isLocal.bind isLocal_decimalRest
    obtain ⟨t, rfl, ht, hread⟩ := hlocal h
    refine ⟨t, rfl, ht, fun r' hr' => ?_⟩
    -- at least one digit is taken, so that no point stands in front
    obtain ⟨c, t, rfl⟩ := List.exists_cons_of_ne_nil (show t ≠ [] by rintro rfl; exact absurd hlength (Nat.lt_irrefl _))
    exact (decimalNumber?_eq _).trans ((if_neg hpoint).trans (hread r' hr'))

theorem length_decimalNumber {cs r : List Char} {v : Value} (h : decimalNumber? cs = some (v, r)) : r.length < cs.length := by
  rw [decimalNumber?_eq] at h
  split at h
  · rename_i hpoint
    obtain ⟨more, rfl⟩ := List.head?_eq_some_iff.1 hpoint
    obtain ⟨x, hx, htail⟩ := Option.bind_eq_some_iff.1 h
    obtain ⟨y, hy, rfl⟩ := Option.map_eq_some_iff.1 hx
    have hle : r.length ≤ y.2.length := (isLocal_decimalTail _ _ _ htail).length_le
    exact Nat.lt_succ_of_le (Nat.le_trans hle (isLocal_fractionDigits hy).length_le)
  · obtain ⟨x, hx, hrest⟩ := Option.bind_eq_some_iff.1 h
    exact Nat.lt_of_le_of_lt (isLocal_decimalRest _ hrest).length_le (isDigits_isDigit.length_lt hx)

/-- The marks of the bases. -/
def baseMarks : List Char := ['x', 'X', 'o', 'O', 'b', 'B']

theorem number?_of_base {c : Char} (hc : c ∈ baseMarks) : ∃ base, ∀ x, number? ('0' :: c :: x) = basedNumber? base x := by
  simp only [baseMarks, List.mem_cons, List.not_mem_nil, or_false] at hc
  rcases hc with rfl | rfl | rfl | rfl | rfl | rfl <;> exact ⟨_, fun x => rfl⟩

theorem number?_of_not_base {cs : List Char} (h : ∀ c ∈ baseMarks, ∀ x, cs ≠ '0' :: c :: x) : number? cs = decimalNumber? cs := by
  unfold number?
  split
  all_goals first | rfl | exact absurd rfl (h _ (by decide) _)

/-- Numbers are read up to what follows them. -/
theorem isLocal_number : IsLocal number? := by
  intro cs r v h
  by_cases hbase : ∃ c ∈ baseMarks, ∃ x, cs = '0' :: c :: x
  · obtain ⟨c, hc, x, rfl⟩ := hbase
    obtain ⟨base, hread⟩ := number?_of_base hc
    rw [hread] at h
    have hspecial : ∀ c ∈ baseMarks, c ∉ special := by decide
    have hrest : Takes (fun x => number? ('0' :: x)) (c :: x) r v := (isLocal_basedNumber base h).cons (hspecial c hc) hread
    exact hrest.cons (by decide) fun x => rfl
  · have hnot : ∀ c ∈ baseMarks, ∀ x, cs ≠ '0' :: c :: x := fun c hc x heq => hbase ⟨c, hc, x, heq⟩
    rw [number?_of_not_base hnot] at h
    have hlength := length_decimalNumber h
    obtain ⟨t, rfl, ht, hread⟩ := isLocal_decimalNumber h
    refine ⟨t, rfl, ht, fun r' hr' => (number?_of_not_base fun c hc x heq => ?_).trans (hread r' hr')⟩
    -- the mark of a base does not come in with what follows
    obtain _ | ⟨a, _ | ⟨b, t⟩⟩ := t
    · exact Nat.lt_irrefl _ hlength
    · obtain ⟨rfl, rfl⟩ := List.cons.inj heq
      have hquiet : ∀ c ∈ quiet, ¬c ∈ baseMarks := by decide
      rcases hr' c rfl with hc' | hc'
      · exact hquiet c hc' hc
      · obtain ⟨more, rfl⟩ := List.head?_eq_some_iff.1 hc'
        exact hnot c hc more rfl
    · obtain ⟨rfl, hb⟩ := List.cons.inj heq
      rw [← (List.cons.inj hb).1] at hc
      exact hnot b hc (t ++ r) rfl

theorem length_number {cs r : List Char} {v : Value} (h : number? cs = some (v, r)) : r.length < cs.length := by
  by_cases hbase : ∃ c ∈ baseMarks, ∃ x, cs = '0' :: c :: x
  · obtain ⟨c, hc, x, rfl⟩ := hbase
    obtain ⟨base, hread⟩ := number?_of_base hc
    rw [hread] at h
    have hle := (isLocal_basedNumber base h).length_le
    simp only [List.length_cons]
    omega
  · rw [number?_of_not_base fun c hc x heq => hbase ⟨c, hc, x, heq⟩] at h
    exact length_decimalNumber h

/-! ## Names -/

/-- A name that stands for a constant or for the empty set. -/
def name? (cs : List Char) : Option (Part × List Char) :=
  (word? (String.ofList (cs.takeWhile Text.isNameContinue))).map fun p => (p, cs.drop (cs.takeWhile Text.isNameContinue).length)

theorem special_not_name : ∀ c ∈ special, Text.isNameContinue c = false := by decide +kernel

theorem quiet_not_name : ∀ c ∈ quiet, ¬Text.isNameContinue c = true := by decide +kernel

theorem takeWhile_append_of_stop {p : Char → Bool} {t r : List Char} (ht : ∀ c ∈ t, p c = true) (hr : ∀ c ∈ r.head?, ¬p c = true) :
    (t ++ r).takeWhile p = t := by
  rw [List.takeWhile_append_of_pos ht]
  cases r with
  | nil => rw [List.takeWhile_nil, List.append_nil]
  | cons c r => rw [List.takeWhile_cons_of_neg (hr c rfl), List.append_nil]

theorem isLocal_name : IsLocal name? := by
  intro cs r part h
  obtain ⟨p, hp, heq⟩ := Option.map_eq_some_iff.1 h
  cases heq
  have hall : ∀ c ∈ cs.takeWhile Text.isNameContinue, Text.isNameContinue c = true := 
    List.all_eq_true.1 List.all_takeWhile
  have hrest : cs.drop (cs.takeWhile Text.isNameContinue).length = cs.dropWhile Text.isNameContinue := by
    conv_lhs => enter [2]; rw [← List.takeWhile_append_dropWhile (p := Text.isNameContinue) (l := cs)]
    exact List.drop_left
  have hstop : ∀ c ∈ (cs.dropWhile Text.isNameContinue).head?, ¬Text.isNameContinue c = true := by
    intro c hc
    have := List.head?_dropWhile_not Text.isNameContinue cs
    rw [hc] at this
    simpa using this
  rw [hrest]
  refine ⟨cs.takeWhile Text.isNameContinue, List.takeWhile_append_dropWhile.symm, fun c hc hspecial => ?_, fun r' hr' => ?_⟩
  · exact absurd (hall c hc) (by rw [special_not_name c hspecial]; exact Bool.false_ne_true)
  · have htake := takeWhile_append_of_stop hall (hr'.head quiet_not_name hstop)
    rw [name?, htake, hp, Option.map_some, List.drop_left]

/-- The words that a part may consist of. -/
def partWords : List (List Char) :=
  [['N', 'o', 'n', 'e'], ['T', 'r', 'u', 'e'], ['F', 'a', 'l', 's', 'e'], ['s', 'e', 't']]

theorem mem_partWords {cs : List Char} {p : Part} (h : word? (String.ofList cs) = some p) : cs ∈ partWords := by
  have htoList {t : String} (heq : String.ofList cs = t) : cs = t.toList := by rw [← heq, String.toList_ofList]
  unfold word? at h
  split at h
  · exact htoList ‹_› ▸ by decide
  split at h
  · exact htoList ‹_› ▸ by decide
  split at h
  · exact htoList ‹_› ▸ by decide
  split at h
  · exact htoList ‹_› ▸ by decide
  · cases h

/-- A token that is neither a bracket nor quoted nor the ellipsis. -/
def bare? (cs : List Char) : Option (Part × List Char) :=
  match cs with
  | c :: _ =>
    if c.isDigit || c == '.' then (number? cs).map fun x => (.number x.1, x.2)
    else if Text.isNameStart c then name? cs
    else none
  | [] => none

theorem length_name {cs r : List Char} {part : Part} (h : name? cs = some (part, r)) : r.length < cs.length := by
  obtain ⟨p, hp, heq⟩ := Option.map_eq_some_iff.1 h
  cases heq
  have hname := mem_partWords hp
  have hne : cs.takeWhile Text.isNameContinue ≠ [] := by
    intro hnil
    rw [hnil] at hname
    exact absurd hname (by decide)
  have hpos := List.length_pos_iff.2 hne
  have hle := (List.takeWhile_prefix Text.isNameContinue (l := cs)).length_le
  rw [List.length_drop]
  omega

theorem length_bare {cs r : List Char} {part : Part} (h : bare? cs = some (part, r)) : r.length < cs.length := by
  unfold bare? at h
  split at h
  · split at h
    · obtain ⟨⟨v, r⟩, hv, heq⟩ := Option.map_eq_some_iff.1 h
      cases heq
      exact length_number hv
    split at h
    · exact length_name h
    · cases h
  · cases h

theorem isLocal_bare : IsLocal bare? := by
  intro cs r part h
  have hlength := length_bare h
  -- the first character is taken, and it decides what is read
  have hfirst : ∀ t, cs = t ++ r → ∃ c more, t = c :: more := fun t heq =>
    List.exists_cons_of_ne_nil (by rintro rfl; rw [heq] at hlength; exact Nat.lt_irrefl _ hlength)
  unfold bare? at h
  split at h
  · split at h
    · rename_i hc
      obtain ⟨⟨v, r⟩, hv, heq⟩ := Option.map_eq_some_iff.1 h
      cases heq
      obtain ⟨t, ht, hspecial, hread⟩ := isLocal_number hv
      obtain ⟨d, t, rfl⟩ := hfirst t ht
      refine ⟨d :: t, ht, hspecial, fun r' hr' => ?_⟩
      rw [← (List.cons.inj ht).1, List.cons_append, bare?, if_pos hc, ← List.cons_append, (List.cons.inj ht).1, hread r' hr']
      rfl
    split at h
    · rename_i hc hstart
      obtain ⟨t, ht, hspecial, hread⟩ := isLocal_name h
      obtain ⟨d, t, rfl⟩ := hfirst t ht
      refine ⟨d :: t, ht, hspecial, fun r' hr' => ?_⟩
      rw [← (List.cons.inj ht).1, List.cons_append, bare?, if_neg hc, if_pos hstart, ← List.cons_append, (List.cons.inj ht).1]
      exact hread r' hr'
    · cases h
  · cases h

/-! ## Tokens -/

/-- What begins a quoted text begins neither a number nor a word. -/
theorem startsQuoted_of_bare {cs : List Char} {x : Part × List Char} (h : bare? cs = some x) : startsQuoted cs = false := by
  unfold bare? at h
  split at h
  · rename_i c rest
    split at h
    · rename_i hc
      rcases Bool.or_eq_true_iff.1 hc with hc | hc
      · exact startsQuoted_digit hc rest
      · rw [beq_iff_eq.1 hc]
        rcases rest with _ | ⟨a, _ | ⟨b, rest⟩⟩ <;> rfl
    split at h
    · obtain ⟨p, hp, -⟩ := Option.map_eq_some_iff.1 h
      have hname := mem_partWords hp
      rw [← List.takeWhile_append_dropWhile (p := Text.isNameContinue) (l := c :: rest)]
      generalize (c :: rest).takeWhile Text.isNameContinue = word at hname ⊢
      simp only [partWords, List.mem_cons, List.not_mem_nil, or_false] at hname
      rcases hname with rfl | rfl | rfl | rfl <;> rfl
    · cases h
  · rfl

theorem simple?_of_bare {cs : List Char} {x : Part × List Char} (inside : Bool) (h : bare? cs = some x) :
    simple? inside cs = some x := by
  unfold simple?
  split
  · rename_i rest
    cases h
  · rw [startsQuoted_of_bare h, if_neg Bool.false_ne_true]
    exact h

end Amalgam.Literal
