import Amalgam.Proofs.Literal.Record
import Amalgam.Value.Spelling

/-!
# What the text of a part means

A text *means* a value if it is read as that wherever it is read as a part of a literal (`Literal.Means`). So do the words for
constants, whole numbers, quoted texts and bytes, and the call that the empty set is written as. A text that no literal starts
like means whatever it is taken for (`Literal.means_angled`).
-/

namespace Amalgam.Literal

open Text.Quoted

/-- Wherever a text is read as a part of a literal, it is read as the value, and what follows is left. -/
structure Means (text : List Char) (v : Value) : Prop where
  opens : ∃ c cs, text = c :: cs ∧ Opens c
  reads : ∀ {fuel depth : Nat} {rest more : List Char} {part : Part}, Ends rest →
    sum? fuel depth (text ++ rest) = some (part, more) → part.value? = some v ∧ more = rest

section Means

variable {text : List Char} {v : Value} (h : Means text v)

include h

theorem Means.gaps_eq (rest : List Char) : gaps false (text ++ rest) = text ++ rest := by
  obtain ⟨c, cs, rfl, hc⟩ := h.opens
  exact hc.gaps_eq _

theorem Means.gaps_blank (rest : List Char) : gaps false (' ' :: (text ++ rest)) = text ++ rest := h.gaps_eq rest

/-- The text is not taken for a bracket that closes. -/
theorem Means.exists_cons {close : Char} (hclose : close ∈ [')', ']', '}']) :
    ∃ c cs, text = c :: cs ∧ c ≠ close := by
  obtain ⟨c, cs, rfl, hc⟩ := h.opens
  refine ⟨c, cs, rfl, fun heq => hc ?_⟩
  rw [heq]
  simp only [List.mem_cons, List.not_mem_nil, or_false] at hclose
  rcases hclose with rfl | rfl | rfl <;> decide

end Means

/-! ## Single parts -/

section Parts

variable {fuel depth : Nat} {c : Char} {cs rest more : List Char} {part : Part}

/-- A part without a sign that is closed is what the atom is. -/
theorem atom?_of_sum? (hsigns : c ≠ '-' ∧ c ≠ '+') (hrest : ∀ {part more}, atom? (fuel - 1) depth (c :: cs) = some (part, more) → Ends more)
    (h : sum? fuel depth (c :: cs) = some (part, more)) : atom? (fuel - 1) depth (c :: cs) = some (part, more) := by
  cases fuel with
  | zero =>
    rw [sum?] at h
    cases h
  | succ fuel =>
    rw [sum?] at h
    · obtain ⟨⟨left, rest⟩, hatom, h⟩ := Option.bind_eq_some_iff.1 h
      have hends := hrest hatom
      dsimp only at h
      rw [hends.trivia_eq] at h
      split at h
      · exact absurd (hends '+' rfl) (by decide)
      · exact absurd (hends '-' rfl) (by decide)
      · rw [← h]
        exact hatom
    · rintro _ heq
      exact hsigns.1 (List.cons.inj heq).1
    · rintro _ heq
      exact hsigns.2 (List.cons.inj heq).1

/-- A text means a value if the atom that begins it does. -/
theorem means_of_atom {v : Value} (hc : Opens c) (hsigns : c ≠ '-' ∧ c ≠ '+')
    (h : ∀ {fuel depth rest part more}, Ends rest → atom? (fuel + 1) depth (c :: (cs ++ rest)) = some (part, more) →
      part.value? = some v ∧ more = rest) : Means (c :: cs) v := by
  have hatom : ∀ {fuel depth rest part more}, Ends rest → atom? fuel depth (c :: (cs ++ rest)) = some (part, more) →
      part.value? = some v ∧ more = rest := by
    intro fuel depth rest part more hrest hatom
    cases fuel with
    | zero =>
      rw [atom?] at hatom
      cases hatom
    | succ fuel => exact h hrest hatom
  refine ⟨⟨c, cs, rfl, hc⟩, fun {fuel depth rest more part} hrest hsum => ?_⟩
  exact hatom hrest (atom?_of_sum? hsigns (fun hatom' => (hatom hrest hatom').2 ▸ hrest) hsum)

/-- What begins with no bracket is a token. -/
theorem simple?_of_atom? (hc : c ∉ ['(', '[', '{']) (h : atom? (fuel + 1) depth (c :: cs) = some (part, more)) :
    ∃ token rest, simple? (decide (depth < maxDepth)) (c :: cs) = some (token, rest) ∧
      (token.value? ≠ none → part = token ∧ more = rest) := by
  rw [atom?] at h
  · obtain ⟨⟨token, rest⟩, htoken, h⟩ := Option.bind_eq_some_iff.1 h
    refine ⟨token, rest, htoken, fun hvalue => ?_⟩
    cases token with
    | setName => exact absurd rfl hvalue
    | _ =>
      cases h
      exact ⟨rfl, rfl⟩
  all_goals
    rintro _ _ heq _
    exact hc (by simp [(List.cons.inj heq).1])

/-- A text means a value if the token that it is does. -/
theorem means_of_simple {v : Value} (hc : Opens c) (hsigns : c ≠ '-' ∧ c ≠ '+') (hbrackets : c ∉ ['(', '[', '{'])
    (h : ∀ {inside rest part more}, Ends rest → simple? inside (c :: (cs ++ rest)) = some (part, more) →
      part.value? = some v ∧ more = rest) : Means (c :: cs) v := by
  refine means_of_atom hc hsigns fun hrest hatom => ?_
  obtain ⟨token, rest, htoken, hall⟩ := simple?_of_atom? hbrackets hatom
  obtain ⟨hvalue, rfl⟩ := h hrest htoken
  obtain ⟨rfl, rfl⟩ := hall (by rw [hvalue]; exact Option.some_ne_none v)
  exact ⟨hvalue, rfl⟩

end Parts

/-! ## Tokens -/

/-- Objects are written between angle brackets, which no literal has. -/
theorem means_angled (cs : List Char) (v : Value) : Means ('<' :: cs) v := by
  refine means_of_simple (by decide) (by decide) (by decide) fun {inside rest part more} _ h => ?_
  have hquoted : startsQuoted ('<' :: (cs ++ rest)) = false := by
    rcases cs ++ rest with _ | ⟨a, _ | ⟨b, more⟩⟩ <;> rfl
  have hname : Text.isNameStart '<' = false := by decide +kernel
  unfold simple? at h
  dsimp only at h
  rw [hquoted, if_neg Bool.false_ne_true, if_neg (by decide), hname] at h
  cases h

/-- The characters with which a number, a signed number or a bracket begins. -/
def leaders : List Char := ['.', '-', '+', '(', '[', '{']

/-- A name of three characters or more, so that none of them marks a quoted text. -/
def isWord (cs : List Char) : Bool :=
  decide (3 ≤ cs.length) && (cs.take 1).all (fun c => Text.isNameStart c && !c.isDigit && decide (Opens c ∧ c ∉ leaders)) &&
    cs.all Text.isNameContinue && !startsQuoted cs

/-- A name ends in front of what follows. -/
def Stops (rest : List Char) : Prop := ∀ c ∈ rest.head?, Text.isNameContinue c = false

theorem Ends.stops {rest : List Char} (h : Ends rest) : Stops rest := by
  intro c hc
  have hc := h c hc
  simp only [List.mem_cons, List.not_mem_nil, or_false] at hc
  rcases hc with rfl | rfl | rfl | rfl | rfl <;> decide +kernel

theorem stops_paren (rest : List Char) : Stops ('(' :: rest) := by
  intro c hc
  cases hc
  decide +kernel

section Words

variable {word rest : List Char} (hword : isWord word = true)

include hword

theorem exists_cons_of_isWord : ∃ a cs, word = a :: cs ∧ Text.isNameStart a = true ∧ a.isDigit = false ∧ Opens a ∧ a ∉ leaders := by
  simp only [isWord, Bool.and_eq_true, decide_eq_true_eq] at hword
  obtain ⟨⟨⟨hlength, hhead⟩, -⟩, -⟩ := hword
  cases word with
  | nil => exact absurd hlength (by decide)
  | cons a cs =>
    simp only [List.take_succ_cons, List.take_zero, List.all_cons, List.all_nil, Bool.and_true, Bool.and_eq_true,
      Bool.not_eq_true', decide_eq_true_eq] at hhead
    exact ⟨a, cs, rfl, hhead.1.1, hhead.1.2, hhead.2⟩

/-- A word is taken for what it stands for, if anything. -/
theorem simple?_word (inside : Bool) (hrest : Stops rest) :
    simple? inside (word ++ rest) = (word? (String.ofList word)).map fun p => (p, rest) := by
  obtain ⟨a, cs, rfl, hstart, hdigit, -, hleaders⟩ := exists_cons_of_isWord hword
  simp only [isWord, Bool.and_eq_true, decide_eq_true_eq, List.all_eq_true, Bool.not_eq_true'] at hword
  obtain ⟨⟨⟨hlength, -⟩, hname⟩, hquoted⟩ := hword
  have hdot : a ≠ '.' := fun h => hleaders (h ▸ List.mem_cons_self)
  have hquoted : startsQuoted (a :: cs ++ rest) = false := by
    obtain _ | ⟨b, _ | ⟨c, cs⟩⟩ := cs
    · exact absurd hlength (by simp)
    · exact absurd hlength (by simp)
    · exact hquoted
  have htake : (a :: cs ++ rest).takeWhile Text.isNameContinue = a :: cs := by
    rw [List.takeWhile_append_of_pos hname]
    cases rest with
    | nil => rw [List.takeWhile_nil, List.append_nil]
    | cons c rest => rw [List.takeWhile_cons_of_neg (by rw [hrest c rfl]; exact Bool.false_ne_true), List.append_nil]
  have hdrop : (a :: cs ++ rest).drop (a :: cs).length = rest := List.drop_left
  unfold simple?
  split
  · rename_i heq
    exact absurd (List.cons.inj heq).1 hdot
  · rw [hquoted, if_neg Bool.false_ne_true]
    show (if a.isDigit || a == '.' then _ else if Text.isNameStart a then _ else none) = _
    rw [htake, if_neg (by simp [hdot, hdigit]), if_pos hstart]
    exact congrArg (fun rest => (word? (String.ofList (a :: cs))).map fun p => (p, rest)) hdrop

/-- A word with a value means it, and a word without is never read, whatever follows. -/
theorem means_word {tail : List Char} {v : Value} (htail : tail = [] ∨ tail.head? = some '(')
    (hvalue : word? (String.ofList word) = none ∨ tail = [] ∧ word? (String.ofList word) = some (.datum v)) :
    Means (word ++ tail) v := by
  have htoken : ∀ inside rest, Ends rest → simple? inside (word ++ (tail ++ rest)) =
      (word? (String.ofList word)).map fun p => (p, tail ++ rest) := by
    intro inside rest hrest
    refine simple?_word hword inside ?_
    rcases htail with rfl | htail
    · exact hrest.stops
    · obtain ⟨tail, rfl⟩ := List.head?_eq_some_iff.1 htail
      exact stops_paren _
  obtain ⟨a, cs, rfl, -, -, hopens, hleaders⟩ := exists_cons_of_isWord hword
  simp only [leaders, List.mem_cons, not_or] at hleaders
  obtain ⟨-, hminus, hplus, hbrackets⟩ := hleaders
  refine means_of_simple hopens ⟨hminus, hplus⟩ (by simpa using hbrackets) fun {inside rest part more} hrest h => ?_
  have htext : a :: (cs.append tail ++ rest) = a :: cs ++ (tail ++ rest) := congrArg (a :: ·) (List.append_assoc cs tail rest)
  rw [htext, htoken inside rest hrest] at h
  rcases hvalue with hnone | ⟨rfl, hsome⟩
  · rw [hnone] at h
    cases h
  · rw [hsome] at h
    cases h
    exact ⟨rfl, rfl⟩

end Words

/-! ## Whole numbers -/

theorem opens_digit {c : Char} (h : c.isDigit = true) : Opens c ∧ c ∉ leaders ∧ (c == '_') = false := by
  refine ⟨fun hmem => ?_, fun hmem => ?_, beq_eq_false_iff_ne.2 ?_⟩
  · simp only [List.mem_cons, List.not_mem_nil, or_false] at hmem
    rcases hmem with rfl | rfl | rfl | rfl | rfl | rfl | rfl | rfl | rfl | rfl <;> exact absurd h (by decide)
  · simp only [leaders, List.mem_cons, List.not_mem_nil, or_false] at hmem
    rcases hmem with rfl | rfl | rfl | rfl | rfl | rfl <;> exact absurd h (by decide)
  · rintro rfl
    exact absurd h (by decide)

theorem isAlpha_digit {c : Char} (h : c.isDigit = true) : c.isAlpha = false := by
  have hdigit : (decide (c.val ≥ 48) && decide (c.val ≤ 57)) = true := h
  have hle : c.val.toNat ≤ 57 := UInt32.le_iff_toNat_le.1 (of_decide_eq_true (Bool.and_eq_true_iff.1 hdigit).2)
  -- both ranges of letters start above the last digit
  have hbelow (low : UInt32) (hlow : 57 < low.toNat) : ¬ low ≤ c.val := fun hge => by
    have := UInt32.le_iff_toNat_le.1 hge
    omega
  have hupper : c.isUpper = false := decide_eq_false fun hge => hbelow 65 (by decide) hge.1
  have hlower : c.isLower = false := by
    have hge : decide (c.val ≥ 97) = false := decide_eq_false (hbelow 97 (by decide))
    exact congrArg (· && decide (c.val ≤ 122)) hge
  exact Bool.or_eq_false_iff.2 ⟨hupper, hlower⟩

theorem startsQuoted_digit {c : Char} (h : c.isDigit = true) (cs : List Char) : startsQuoted (c :: cs) = false := by
  have halpha := isAlpha_digit h
  have hsingle : (c == '\'') = false := beq_eq_false_iff_ne.2 fun heq => absurd (heq ▸ h) (by decide)
  have hdouble : (c == '"') = false := beq_eq_false_iff_ne.2 fun heq => absurd (heq ▸ h) (by decide)
  rcases cs with _ | ⟨a, _ | ⟨b, cs⟩⟩ <;> simp [startsQuoted, halpha, hsingle, hdouble]

theorem digitRun?_digits {cs rest : List Char} (hcs : ∀ c ∈ cs, c.isDigit = true) (hrest : Ends rest) (acc : List Char) :
    digitRun? Char.isDigit acc (cs ++ rest) = some (acc.reverse ++ cs, rest) := by
  induction cs generalizing acc with
  | nil =>
    rw [List.nil_append, List.append_nil]
    cases rest with
    | nil => rfl
    | cons c rest =>
      have hc := hrest c rfl
      simp only [List.mem_cons, List.not_mem_nil, or_false] at hc
      rcases hc with rfl | rfl | rfl | rfl | rfl <;> rfl
  | cons c cs ih =>
    have hc := hcs c List.mem_cons_self
    obtain ⟨-, -, hline⟩ := opens_digit hc
    rw [List.cons_append, digitRun?, hline, if_neg Bool.false_ne_true, if_pos hc,
      ih fun d hd => hcs d (List.mem_cons_of_mem _ hd), List.reverse_cons, List.append_assoc]
    · rfl
    · rintro _ _ heq -
      exact absurd heq (beq_eq_false_iff_ne.1 hline)

/-- Behind digits there are only digits and what closes them. -/
theorem digit_or_end {cs rest more : List Char} {c : Char} (hcs : ∀ c ∈ cs, c.isDigit = true) (hrest : Ends rest)
    (h : cs ++ rest = c :: more) : c.isDigit = true ∨ c ∈ [',', ':', ')', ']', '}'] := by
  cases cs with
  | nil => exact Or.inr (hrest c (by rw [show rest = c :: more from h]; rfl))
  | cons d cs =>
    obtain ⟨rfl, -⟩ := List.cons.inj h
    exact Or.inl (hcs d List.mem_cons_self)

/-- Digits are the number that they are written for, unless they are too many to be read. -/
theorem number?_digits {n : Nat} {rest more : List Char} {v : Value} (hrest : Ends rest)
    (h : number? (Nat.toDigits 10 n ++ rest) = some (v, more)) : v = .int n ∧ more = rest := by
  have hall : ∀ c ∈ Nat.toDigits 10 n, c.isDigit = true := fun c hc => Nat.isDigit_of_mem_toDigits (by decide) (by decide) hc
  have hvalue : Document.Number.ofDigits (Nat.toDigits 10 n) = n := Nat.ofDigitChars_ten_toDigits
  obtain ⟨d, cs, hds⟩ := List.exists_cons_of_ne_nil (Nat.toDigits_ne_nil : Nat.toDigits 10 n ≠ [])
  rw [hds] at hall hvalue h
  have hd := hall d List.mem_cons_self
  have hcs : ∀ c ∈ cs, c.isDigit = true := fun c hc => hall c (List.mem_cons_of_mem _ hc)
  -- No mark of a base stands behind the first digit.
  have hbase : number? (d :: cs ++ rest) = decimalNumber? (d :: cs ++ rest) := by
    unfold number?
    split <;> first | rfl | skip
    all_goals
      rename_i heq
      exact absurd (digit_or_end hcs hrest (List.cons.inj heq).2) (by decide)
  have hdigits : digits? Char.isDigit (d :: cs ++ rest) = some (d :: cs, rest) := by
    rw [List.cons_append, digits?, if_pos hd, digitRun?_digits hcs hrest]
    rfl
  rw [hbase] at h
  have hdot : d ≠ '.' := by
    rintro rfl
    exact absurd hd (by decide)
  have hdecimal : decimalNumber? (d :: cs ++ rest) = if n = 0 then some (.int 0, rest)
      else if (d :: cs).head? = some '0' || (d :: cs).length > 4300 then none else some (.int n, rest) := by
    unfold decimalNumber?
    dsimp only
    split
    · rename_i heq
      exact absurd (List.cons.inj heq).1 hdot
    · rw [hdigits, ← hvalue]
      cases rest with
      | nil => rfl
      | cons c rest =>
        have hc := hrest c rfl
        simp only [List.mem_cons, List.not_mem_nil, or_false] at hc
        rcases hc with rfl | rfl | rfl | rfl | rfl <;> rfl
  rw [hdecimal] at h
  split at h
  · rename_i hzero
    cases h
    exact ⟨by rw [hzero]; rfl, rfl⟩
  split at h
  · cases h
  · cases h
    exact ⟨rfl, rfl⟩

theorem toList_repr (n : Nat) : (Nat.repr n).toList = Nat.toDigits 10 n := String.toList_ofList

theorem exists_digits (n : Nat) : ∃ d cs, Nat.toDigits 10 n = d :: cs ∧ d.isDigit = true := by
  obtain ⟨d, cs, hds⟩ := List.exists_cons_of_ne_nil (Nat.toDigits_ne_nil : Nat.toDigits 10 n ≠ [])
  exact ⟨d, cs, hds, Nat.isDigit_of_mem_toDigits (b := 10) (n := n) (by decide) (by decide) (hds ▸ List.mem_cons_self)⟩

/-- Digits are read as a bare number. -/
theorem atom?_digits {n fuel depth : Nat} {rest more : List Char} {part : Part} (hrest : Ends rest)
    (h : atom? (fuel + 1) depth (Nat.toDigits 10 n ++ rest) = some (part, more)) : part = .number (.int n) ∧ more = rest := by
  obtain ⟨d, cs, hds, hd⟩ := exists_digits n
  obtain ⟨-, hleaders, -⟩ := opens_digit hd
  have hdot : d ≠ '.' := fun h => hleaders (h ▸ List.mem_cons_self)
  have hbrackets : d ∉ ['(', '[', '{'] := by
    simp only [leaders, List.mem_cons, not_or] at hleaders
    simpa using hleaders.2.2.2
  have hnumber : ∀ {v more}, number? (Nat.toDigits 10 n ++ rest) = some (v, more) → v = .int n ∧ more = rest := number?_digits hrest
  rw [hds] at h hnumber
  obtain ⟨token, behind, htoken, hall⟩ := simple?_of_atom? hbrackets h
  have htoken : (number? (d :: cs ++ rest)).map (fun r => (Part.number r.1, r.2)) = some (token, behind) := by
    rw [← htoken]
    unfold simple?
    split
    · rename_i heq
      exact absurd (List.cons.inj heq).1 hdot
    · rw [startsQuoted_digit hd, if_neg Bool.false_ne_true]
      dsimp only
      rw [if_pos (by rw [hd, Bool.true_or])]
      rfl
  obtain ⟨⟨v, behind⟩, hv, heq⟩ := Option.map_eq_some_iff.1 htoken
  cases heq
  obtain ⟨rfl, rfl⟩ := hnumber hv
  obtain ⟨rfl, rfl⟩ := hall (by simp [Part.value?])
  exact ⟨rfl, rfl⟩

theorem means_int (i : Int) : Means (toString i).toList (.int i) := by
  cases i with
  | ofNat n =>
    show Means (Nat.repr n).toList _
    rw [toList_repr]
    have hatom : ∀ {fuel depth rest part more}, Ends rest → atom? (fuel + 1) depth (Nat.toDigits 10 n ++ rest) =
        some (part, more) → part = .number (.int n) ∧ more = rest := atom?_digits
    obtain ⟨d, cs, hds, hd⟩ := exists_digits n
    obtain ⟨hopens, hleaders, -⟩ := opens_digit hd
    simp only [leaders, List.mem_cons, not_or] at hleaders
    rw [hds] at hatom ⊢
    refine means_of_atom hopens ⟨hleaders.2.1, hleaders.2.2.1⟩ fun hrest h => ?_
    obtain ⟨rfl, rfl⟩ := hatom hrest h
    exact ⟨rfl, rfl⟩
  | negSucc n =>
    have htext : (toString (Int.negSucc n)).toList = '-' :: Nat.toDigits 10 (n + 1) := by
      show ("-" ++ Nat.repr (n + 1)).toList = _
      rw [String.toList_append, toList_repr]
      rfl
    rw [htext]
    refine ⟨⟨'-', _, rfl, by decide⟩, fun {fuel depth rest more part} hrest h => ?_⟩
    obtain ⟨d, cs, hds, hd⟩ := exists_digits (n + 1)
    have htrivia : ∀ inside, trivia inside (Nat.toDigits 10 (n + 1) ++ rest) = Nat.toDigits 10 (n + 1) ++ rest := by
      intro inside
      rw [hds]
      exact (opens_digit hd).1.trivia_eq inside _
    rw [List.cons_append] at h
    cases fuel with
    | zero =>
      rw [sum?] at h
      cases h
    | succ fuel =>
      rw [sum?] at h
      dsimp only at h
      rw [htrivia] at h
      cases fuel with
      | zero =>
        rw [atom?] at h
        cases h
      | succ fuel =>
        obtain ⟨⟨left, behind⟩, hleft, hdone⟩ := Option.bind_eq_some_iff.1 h
        obtain ⟨⟨token, behind'⟩, hatom, hsigned⟩ := Option.bind_eq_some_iff.1 hleft
        obtain ⟨rfl, rfl⟩ := atom?_digits hrest hatom
        cases hsigned
        dsimp only at hdone
        rw [hrest.trivia_eq] at hdone
        split at hdone
        · exact absurd (hrest '+' rfl) (by decide)
        · exact absurd (hrest '-' rfl) (by decide)
        · cases hdone
          exact ⟨rfl, rfl⟩

/-! ## Quoted texts -/

theorem means_str (s : String) : Means (quote s).toList (.str s) := by
  have hq := isQuote_quoteFor s.toList
  have hquoted : ∀ {rest}, Ends rest → quoted? ((quote s).toList ++ rest) = some (.str s, rest) := fun hrest =>
    quoted?_quote s hrest.apart
  rw [quote_toList] at hquoted ⊢
  generalize quoteFor s.toList = q at hq hquoted ⊢
  have hhead : Opens q ∧ (q ≠ '-' ∧ q ≠ '+') ∧ q ∉ ['(', '[', '{'] := by rcases hq with rfl | rfl <;> decide
  refine means_of_simple hhead.1 hhead.2.1 hhead.2.2 fun {inside rest part more} hrest h => ?_
  have hquoted := hquoted hrest
  rw [List.cons_append] at hquoted
  obtain ⟨c, cs, heq⟩ := List.exists_cons_of_ne_nil (show s.toList.flatMap (escapeChar q) ++ [q] ++ rest ≠ [] by simp)
  rw [heq] at h hquoted
  rw [simple?_quoted inside (startsQuoted_quote hq c cs) hrest hquoted] at h
  cases h
  exact ⟨rfl, rfl⟩

theorem means_bytes {bs : List Nat} (hbytes : ∀ b ∈ bs, b < 256) : Means (quoteBytes bs).toList (.bytes bs) := by
  have hq := isQuote_quoteFor (bs.map Char.ofNat)
  have hquoted : ∀ {rest}, Ends rest → quoted? ((quoteBytes bs).toList ++ rest) = some (.bytes bs, rest) := fun hrest =>
    quoted?_quoteBytes hbytes hrest.apart
  rw [quoteBytes_toList hbytes] at hquoted ⊢
  generalize quoteFor (bs.map Char.ofNat) = q at hq hquoted ⊢
  refine means_of_simple (by decide) (by decide) (by decide) fun {inside rest part more} hrest h => ?_
  have hstarts : ∀ cs, startsQuoted ('b' :: q :: cs) = true := by
    intro cs
    rcases hq with rfl | rfl <;> cases cs <;> rfl
  have h := (simple?_quoted inside (hstarts _) hrest (hquoted hrest)).symm.trans h
  cases h
  exact ⟨rfl, rfl⟩

/-- The empty set is written as a call of its name. -/
theorem means_emptySet : Means ['s', 'e', 't', '(', ')'] (.set []) := by
  refine means_of_atom (by decide) (by decide) fun {fuel depth rest part more} _ h => ?_
  have hname : simple? (decide (depth < maxDepth)) ('s' :: (['e', 't', '(', ')'] ++ rest)) =
      some (.setName, '(' :: ')' :: rest) := @simple?_word ['s', 'e', 't'] _ (by decide +kernel) _ (stops_paren _)
  have hparen : ∀ inside, trivia inside ('(' :: ')' :: rest) = '(' :: ')' :: rest := fun inside =>
    Opens.trivia_eq (by decide) inside _
  rw [atom?, hname] at h
  · simp only [Option.bind_eq_bind, Option.bind_some, hparen] at h
    have h : (if depth = 0 then none else some (Part.datum (.set []), rest)) = some (part, more) := h
    split at h
    · cases h
    · cases h
      exact ⟨rfl, rfl⟩
  all_goals
    rintro _ _ heq
    exact absurd (List.cons.inj heq).1 (by decide)

end Amalgam.Literal
