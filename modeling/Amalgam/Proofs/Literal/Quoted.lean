import Amalgam.Literal.Token
import Amalgam.Text.Quoted
import Mathlib.Algebra.Group.Nat.Defs
import Mathlib.Data.List.Basic

/-!
# Quoted texts are read back

A text is written between quotes character by character, each in one of three ways (`Written`), and so is a byte string,
whose bytes are characters of small code. The reader goes over a text written so in three passes: it finds the closing quote
(`body?_written`), joins line ends, of which there are none (`joinLineEnds_written`), and reads the escapes
(`unescape?_written`). Every character comes back (`quoted?_quote`), and so does every byte (`quoted?_quoteBytes`).
-/

namespace Amalgam.Literal

open Text.Quoted
open Document.Number (digitValue? ofDigitsIn?)

/-- What holds of all characters of a list is decided for one after another of them, and not for all the characters there are. -/
scoped instance decidableForallMem {p : Char → Prop} [DecidablePred p] (cs : List Char) : Decidable (∀ c ∈ cs, p c) :=
  List.decidableBAll p cs

/-! ## Digits of base sixteen -/

theorem digitValue?_hexDigit : ∀ n < 16, digitValue? (hexDigit n) = some n := by decide

/-- What matters of the digits when a closing quote or an escape is looked for. -/
theorem hexDigit_plain : ∀ n < 16,
    hexDigit n ≠ '\\' ∧ hexDigit n ≠ '\'' ∧ hexDigit n ≠ '"' ∧ hexDigit n ≠ '\n' ∧ hexDigit n ≠ '\r' ∧
      hexDigit n ≠ '\x00' := by decide

theorem exists_of_mem_hexDigits {width n : Nat} {c : Char} (h : c ∈ hexDigits width n) :
    ∃ d < 16, c = hexDigit d := by
  induction width generalizing n with
  | zero => cases h
  | succ width ih =>
    rcases List.mem_append.1 h with h | h
    · exact ih h
    · exact ⟨n % 16, Nat.mod_lt n (by decide), List.mem_singleton.1 h⟩

theorem ofDigitsIn?_hexDigits {width n : Nat} (h : n < 16 ^ width) : ofDigitsIn? 16 (hexDigits width n) = some n := by
  unfold ofDigitsIn?
  induction width generalizing n with
  | zero =>
    have : n = 0 := by
      rw [Nat.pow_zero] at h
      omega
    rw [this]
    rfl
  | succ width ih =>
    have hn : n / 16 < 16 ^ width := by
      rw [Nat.pow_succ] at h
      exact Nat.div_lt_of_lt_mul (by omega)
    have hd : n % 16 < 16 := Nat.mod_lt n (by decide)
    rw [hexDigits, List.foldlM_append, ih hn]
    simp only [List.foldlM_cons, List.foldlM_nil, digitValue?_hexDigit _ hd, Option.bind_some, Option.bind_eq_bind,
      if_pos hd]
    exact congrArg some (Nat.div_add_mod n 16)

theorem code?_hexDigits {width n : Nat} (h : n < 16 ^ width) (rest : List Char) :
    code? width (hexDigits width n ++ rest) = some (n, rest) := by
  have hlen := length_hexDigits width n
  have htake : (hexDigits width n ++ rest).take width = hexDigits width n := List.take_left' hlen
  have hdrop : (hexDigits width n ++ rest).drop width = rest := List.drop_left' hlen
  unfold code?
  rw [htake, hdrop, if_pos hlen, ofDigitsIn?_hexDigits h]
  rfl

/-- A character has the code it was given by. -/
theorem charOf_toNat (c : Char) : charOf c.toNat = c := by
  have hvalid : c.toNat < 0xD800 ∨ 0xDFFF < c.toNat := by
    rcases c.valid with h | h
    · exact Or.inl h
    · exact Or.inr h.1
  unfold charOf
  have : (0xD800 ≤ c.toNat && decide (c.toNat < 0xE000)) = false := by
    simp only [Bool.and_eq_false_iff, decide_eq_false_iff_not]
    omega
  rw [this]
  exact Char.ofNat_toNat c

/-! ## The ways in which a character is written -/

/-- The characters that are written by a letter behind a backslash. -/
def letters : List (Char × Char) :=
  [('\'', '\''), ('"', '"'), ('\\', '\\'), ('t', '\t'), ('n', '\n'), ('r', '\r')]

/-- A character that stands for itself between the given quotes. -/
structure Plain (quote c : Char) : Prop where
  quote : c ≠ quote
  backslash : c ≠ '\\'
  lineFeed : c ≠ '\n'
  carriageReturn : c ≠ '\r'
  zero : c ≠ '\x00'

/-- How a character is written between quotes: by a letter behind a backslash, as itself, or by its code. -/
inductive Written (quote : Char) : Char → List Char → Prop where
  | letter {d c : Char} (h : (d, c) ∈ letters) : Written quote c ['\\', d]
  | plain {c : Char} (h : Plain quote c) : Written quote c [c]
  | code (c : Char) : Written quote c (codeEscape c.toNat)

/-- What a text may be put between. -/
def IsQuote (q : Char) : Prop := q = '\'' ∨ q = '"'

theorem isQuote_quoteFor (cs : List Char) : IsQuote (quoteFor cs) := by
  unfold quoteFor
  split
  · exact Or.inr rfl
  · exact Or.inl rfl

/-- The short escapes come first, of characters and of bytes. -/
theorem escape_written {q c : Char} (hq : IsQuote q) {other : List Char}
    (h : c ≠ q → c ≠ '\\' → c ≠ '\n' → c ≠ '\r' → Written q c other) :
    Written q c (if c == q || c == '\\' then ['\\', c] else if c == '\t' then ['\\', 't'] else if c == '\n' then ['\\', 'n']
      else if c == '\r' then ['\\', 'r'] else other) := by
  by_cases hquote : c = q ∨ c = '\\'
  · rw [if_pos (by simpa using hquote)]
    refine Written.letter ?_
    rcases hquote with rfl | rfl
    · rcases hq with rfl | rfl <;> decide
    · decide
  rw [if_neg (by simpa using hquote)]
  by_cases htab : c = '\t'
  · subst htab
    exact Written.letter (by decide)
  rw [if_neg (by simpa using htab)]
  by_cases hline : c = '\n'
  · subst hline
    exact Written.letter (by decide)
  rw [if_neg (by simpa using hline)]
  by_cases hreturn : c = '\r'
  · subst hreturn
    exact Written.letter (by decide)
  rw [if_neg (by simpa using hreturn)]
  rw [not_or] at hquote
  exact h hquote.1 hquote.2 hline hreturn

theorem escapeChar_written {q : Char} (hq : IsQuote q) (c : Char) : Written q c (escapeChar q c) := by
  refine escape_written hq fun hquote hslash hline hreturn => ?_
  split
  · rename_i hprint
    refine Written.plain ⟨hquote, hslash, hline, hreturn, ?_⟩
    rintro rfl
    exact absurd hprint (by decide)
  · exact Written.code c

theorem toNat_ofNat {b : Nat} (h : b < 256) : (Char.ofNat b).toNat = b := by
  rw [Char.ofNat, dif_pos (Or.inl (by omega))]
  rfl

/-- A byte is written like the character of its code. -/
theorem escapeByte_written {q : Char} (hq : IsQuote q) {c : Char} (h : c.toNat < 256) : Written q c (escapeByte q c.toNat) := by
  have hchar : Char.ofNat c.toNat = c := Char.ofNat_toNat c
  unfold escapeByte
  rw [hchar]
  refine escape_written hq fun hquote hslash hline hreturn => ?_
  split
  · rename_i hprint
    refine Written.plain ⟨hquote, hslash, hline, hreturn, ?_⟩
    rintro rfl
    exact absurd hprint (by decide)
  · have hcode : '\\' :: 'x' :: hexDigits 2 c.toNat = codeEscape c.toNat := by rw [codeEscape, if_pos h]
    rw [hcode]
    exact Written.code c

/-- The characters of an escape by code: a backslash, a letter for the width, and digits. -/
theorem codeEscape_eq {n : Nat} (h : n < 0x110000) :
    ∃ mark width, (mark, width) ∈ [('x', 2), ('u', 4), ('U', 8)] ∧ n < 16 ^ width ∧
      codeEscape n = '\\' :: mark :: hexDigits width n := by
  unfold codeEscape
  split
  · exact ⟨'x', 2, by decide, by omega, rfl⟩
  split
  · exact ⟨'u', 4, by decide, by omega, rfl⟩
  · exact ⟨'U', 8, by decide, by omega, rfl⟩

theorem toNat_lt (c : Char) : c.toNat < 0x110000 := by
  rcases c.valid with h | h
  · exact Nat.lt_trans h (by decide)
  · exact h.2

/-! ## Finding the closing quote -/

theorem body?_plain {q c : Char} {acc rest : List Char} (h : Plain q c) :
    body? q false acc (c :: rest) = body? q false (c :: acc) rest := by
  have hend : isLineEnd c = false := by simp [isLineEnd, h.lineFeed, h.carriageReturn]
  rw [body?.eq_def]
  split
  · rename_i heq
    exact absurd (List.cons.inj heq).1 h.backslash
  · rename_i heq
    exact absurd (List.cons.inj heq).1 h.backslash
  · rename_i heq
    obtain ⟨rfl, rfl⟩ := List.cons.inj heq
    rw [if_neg (by simpa using h.quote), hend]
    rfl
  · rename_i heq
    cases heq

theorem body?_backslash {q c : Char} {acc rest : List Char} (h : c ≠ '\r') :
    body? q false acc ('\\' :: c :: rest) = body? q false (c :: '\\' :: acc) rest := by
  rw [body?]
  rintro _ hc
  exact absurd hc h

theorem body?_plains {q : Char} {acc cs rest : List Char} (h : ∀ c ∈ cs, Plain q c) :
    body? q false acc (cs ++ rest) = body? q false (cs.reverse ++ acc) rest := by
  induction cs generalizing acc with
  | nil => rfl
  | cons c cs ih =>
    rw [List.cons_append, body?_plain (h c List.mem_cons_self), ih fun d hd => h d (List.mem_cons_of_mem _ hd)]
    rw [List.reverse_cons, List.append_assoc, List.singleton_append]

theorem plain_of_mem_hexDigits {q : Char} (hq : IsQuote q) {width n : Nat} {c : Char} (h : c ∈ hexDigits width n) :
    Plain q c := by
  obtain ⟨d, hd, rfl⟩ := exists_of_mem_hexDigits h
  obtain ⟨hslash, hsingle, hdouble, hline, hreturn, hzero⟩ := hexDigit_plain d hd
  refine ⟨?_, hslash, hline, hreturn, hzero⟩
  rcases hq with rfl | rfl
  · exact hsingle
  · exact hdouble

theorem body?_one {q : Char} (hq : IsQuote q) {c : Char} {w acc rest : List Char} (h : Written q c w) :
    body? q false acc (w ++ rest) = body? q false (w.reverse ++ acc) rest := by
  cases h with
  | letter h =>
    refine body?_backslash ?_
    rintro rfl
    simp [letters] at h
  | plain h => exact body?_plain h
  | code =>
    obtain ⟨mark, width, hmark, -, heq⟩ := codeEscape_eq (toNat_lt c)
    have hreturn : mark ≠ '\r' := by
      rintro rfl
      simp at hmark
    rw [heq, List.cons_append, List.cons_append, body?_backslash hreturn,
      body?_plains fun d hd => plain_of_mem_hexDigits hq hd]
    simp

/-- The closing quote is found right behind the text. -/
theorem body?_written {q : Char} (hq : IsQuote q) {writer : Char → List Char} {cs : List Char}
    (hw : ∀ c ∈ cs, Written q c (writer c)) (acc rest : List Char) :
    body? q false acc (cs.flatMap writer ++ q :: rest) = some (acc.reverse ++ cs.flatMap writer, rest) := by
  induction cs generalizing acc with
  | nil =>
    rw [List.flatMap_nil, List.nil_append, List.append_nil, body?.eq_def]
    rcases hq with rfl | rfl <;> rfl
  | cons c cs ih =>
    rw [List.flatMap_cons, List.append_assoc, body?_one hq (hw c List.mem_cons_self),
      ih fun d hd => hw d (List.mem_cons_of_mem _ hd), List.reverse_append, List.reverse_reverse, List.append_assoc]

/-! ## Line ends -/

theorem joinLineEnds_eq_self {cs : List Char} (h : '\r' ∉ cs) : joinLineEnds cs = cs := by
  induction cs with
  | nil => rfl
  | cons c cs ih =>
    rw [List.mem_cons, not_or] at h
    rw [joinLineEnds.eq_def]
    split
    · rename_i heq
      exact absurd (List.cons.inj heq).1.symm h.1
    · rename_i heq
      exact absurd (List.cons.inj heq).1.symm h.1
    · rename_i heq
      obtain ⟨rfl, rfl⟩ := List.cons.inj heq
      rw [ih h.2]
    · rename_i heq
      cases heq

/-- The characters that no text is written with. -/
def unwritten : List Char := ['\n', '\r', '\x00']

theorem Plain.ne_of_unwritten {q c z : Char} (h : Plain q c) (hz : z ∈ unwritten) : z ≠ c := by
  simp only [unwritten, List.mem_cons, List.not_mem_nil, or_false] at hz
  rcases hz with rfl | rfl | rfl
  · exact h.lineFeed.symm
  · exact h.carriageReturn.symm
  · exact h.zero.symm

/-- No character is written with a line end or a zero character. -/
theorem Written.apart {q : Char} (hq : IsQuote q) {c : Char} {w : List Char} (h : Written q c w) {z : Char}
    (hz : z ∈ unwritten) : z ∉ w := by
  cases h with
  | letter h =>
    have hletters : ∀ e ∈ letters, ∀ z ∈ unwritten, z ∉ ['\\', e.1] := by decide
    exact hletters _ h z hz
  | plain h => simpa using h.ne_of_unwritten hz
  | code =>
    obtain ⟨mark, width, hmark, -, heq⟩ := codeEscape_eq (toNat_lt c)
    rw [heq]
    simp only [List.mem_cons, Prod.mk.injEq, List.not_mem_nil, or_false] at hmark
    have hdigits : z ∉ hexDigits width c.toNat := fun h => (plain_of_mem_hexDigits hq h).ne_of_unwritten hz rfl
    have hmarks : ∀ m ∈ ['x', 'u', 'U'], ∀ z ∈ unwritten, z ∉ ['\\', m] := by decide
    have hfront : z ∉ ['\\', mark] := hmarks mark (by rcases hmark with ⟨rfl, -⟩ | ⟨rfl, -⟩ | ⟨rfl, -⟩ <;> decide) z hz
    exact fun h => (List.mem_append.1 (show z ∈ ['\\', mark] ++ hexDigits width c.toNat from h)).elim hfront hdigits

theorem joinLineEnds_written {q : Char} (hq : IsQuote q) {writer : Char → List Char} {cs : List Char}
    (hw : ∀ c ∈ cs, Written q c (writer c)) : joinLineEnds (cs.flatMap writer) = cs.flatMap writer := by
  refine joinLineEnds_eq_self fun h => ?_
  obtain ⟨c, hmem, hc⟩ := List.mem_flatMap.1 h
  exact (hw c hmem).apart hq (by decide) hc

/-! ## Reading the escapes -/

section Unescape

variable {isBytes : Bool}

theorem unescape?_letter {d c : Char} (h : (d, c) ∈ letters) (fuel : Nat) (rest : List Char) :
    unescape? isBytes (fuel + 1) ('\\' :: d :: rest) = (unescape? isBytes fuel rest).map (c.toNat :: ·) := by
  simp only [letters, List.mem_cons, Prod.mk.injEq, List.not_mem_nil, or_false] at h
  rcases h with ⟨rfl, rfl⟩ | ⟨rfl, rfl⟩ | ⟨rfl, rfl⟩ | ⟨rfl, rfl⟩ | ⟨rfl, rfl⟩ | ⟨rfl, rfl⟩ <;> rfl

theorem unescape?_plain {c : Char} (h : c ≠ '\\') (fuel : Nat) (rest : List Char) :
    unescape? isBytes (fuel + 1) (c :: rest) = (unescape? isBytes fuel rest).map (c.toNat :: ·) := by
  rw [unescape?]
  rintro _ _ hc
  exact absurd hc h

/-- Of bytes, the codes have two digits. -/
theorem unescape?_code (c : Char) (hsmall : isBytes = true → c.toNat < 256) (fuel : Nat) (rest : List Char) :
    unescape? isBytes (fuel + 1) (codeEscape c.toNat ++ rest) = (unescape? isBytes fuel rest).map (c.toNat :: ·) := by
  cases isBytes with
  | true =>
    have hcode : code? 2 (hexDigits 2 c.toNat ++ rest) = some (c.toNat, rest) := code?_hexDigits (hsmall rfl) rest
    rw [codeEscape, if_pos (hsmall rfl)]
    show (code? 2 (hexDigits 2 c.toNat ++ rest)).bind _ = _
    rw [hcode]
    rfl
  | false =>
  obtain ⟨mark, width, hmark, hn, heq⟩ := codeEscape_eq (toNat_lt c)
  have hcode := code?_hexDigits hn rest
  rw [heq, List.cons_append, List.cons_append]
  simp only [List.mem_cons, Prod.mk.injEq, List.not_mem_nil, or_false] at hmark
  rcases hmark with ⟨rfl, rfl⟩ | ⟨rfl, rfl⟩ | ⟨rfl, rfl⟩
  · show (code? 2 _).bind _ = _
    rw [hcode]
    rfl
  · show (code? 4 _).bind _ = _
    rw [hcode]
    rfl
  · show (code? 8 _).bind _ = _
    rw [hcode]
    exact if_pos (toNat_lt c)

theorem unescape?_one {q c : Char} {w : List Char} (h : Written q c w) (hsmall : isBytes = true → c.toNat < 256) (fuel : Nat)
    (rest : List Char) : unescape? isBytes (fuel + 1) (w ++ rest) = (unescape? isBytes fuel rest).map (c.toNat :: ·) := by
  cases h with
  | letter h => exact unescape?_letter h fuel rest
  | plain h => exact unescape?_plain h.backslash fuel rest
  | code => exact unescape?_code c hsmall fuel rest

/-- One step of the reader for each character is enough. -/
theorem unescape?_written {q : Char} {writer : Char → List Char} {cs : List Char} (hw : ∀ c ∈ cs, Written q c (writer c))
    (hsmall : isBytes = true → ∀ c ∈ cs, c.toNat < 256) {fuel : Nat} (h : cs.length < fuel) :
    unescape? isBytes fuel (cs.flatMap writer) = some (cs.map Char.toNat) := by
  induction cs generalizing fuel with
  | nil =>
    obtain ⟨fuel, rfl⟩ := Nat.exists_eq_succ_of_ne_zero (Nat.ne_of_gt h)
    rfl
  | cons c cs ih =>
    obtain ⟨fuel, rfl⟩ := Nat.exists_eq_succ_of_ne_zero (Nat.ne_of_gt (Nat.lt_of_le_of_lt (Nat.zero_le _) h))
    rw [List.length_cons] at h
    rw [List.flatMap_cons, unescape?_one (hw c List.mem_cons_self) fun hb => hsmall hb c List.mem_cons_self,
      ih (fun d hd => hw d (List.mem_cons_of_mem _ hd)) (fun hb d hd => hsmall hb d (List.mem_cons_of_mem _ hd)) (by omega)]
    rfl

end Unescape

/-! ## The whole text -/

theorem Written.ne_nil {q c : Char} {w : List Char} (h : Written q c w) : w ≠ [] := by
  cases h with
  | letter => simp
  | plain => simp
  | code =>
    obtain ⟨mark, width, -, -, heq⟩ := codeEscape_eq (toNat_lt c)
    simp [heq]

theorem length_le_written {q : Char} {writer : Char → List Char} {cs : List Char} (hw : ∀ c ∈ cs, Written q c (writer c)) :
    cs.length ≤ (cs.flatMap writer).length := by
  induction cs with
  | nil => exact Nat.le_refl 0
  | cons c cs ih =>
    have := List.length_pos_of_ne_nil (hw c List.mem_cons_self).ne_nil
    have := ih fun d hd => hw d (List.mem_cons_of_mem _ hd)
    rw [List.flatMap_cons, List.length_append, List.length_cons]
    omega

/-- A character is never written with a quote in front. -/
theorem Written.head_ne {q : Char} (hq : IsQuote q) {c : Char} {w : List Char} (h : Written q c w) : w.head? ≠ some q := by
  have hslash : some '\\' ≠ some q := by rcases hq with rfl | rfl <;> decide
  cases h with
  | letter => exact hslash
  | plain h => exact fun he => h.quote (Option.some.inj he)
  | code =>
    obtain ⟨mark, width, -, -, heq⟩ := codeEscape_eq (toNat_lt c)
    rw [heq]
    exact hslash

/-- What stands behind a quoted text does not run on with the same quote. -/
def Apart (rest : List Char) : Prop := ∀ q, IsQuote q → rest.head? ≠ some q

theorem quote_toList (s : String) :
    (quote s).toList =
      quoteFor s.toList :: (s.toList.flatMap (escapeChar (quoteFor s.toList)) ++ [quoteFor s.toList]) := by
  unfold quote
  rw [String.toList_ofList]
  rfl

/-- Two quotes of an empty text are not taken for two of three. -/
theorem between?_written {q : Char} (hq : IsQuote q) {writer : Char → List Char} {cs : List Char}
    (hw : ∀ c ∈ cs, Written q c (writer c)) {rest : List Char} (hrest : Apart rest) :
    between? (q :: (cs.flatMap writer ++ q :: rest)) = some (cs.flatMap writer, rest) := by
  have hbody := body?_written hq hw [] rest
  rw [List.reverse_nil, List.nil_append] at hbody
  cases cs with
  | nil =>
    cases rest with
    | nil => exact hbody
    | cons d rest =>
      have hd : d ≠ q := fun h => hrest q hq (congrArg some h)
      rw [List.flatMap_nil, List.nil_append, between?, if_neg (by simpa using hd.symm)]
      exact hbody
  | cons c cs =>
    have hhead := (hw c List.mem_cons_self).head_ne hq
    have hne := (hw c List.mem_cons_self).ne_nil
    rw [List.flatMap_cons, List.append_assoc] at hbody ⊢
    obtain ⟨a, w, hw⟩ := List.exists_cons_of_ne_nil hne
    rw [hw] at hbody hhead ⊢
    have ha : (q == a) = false := by
      rw [beq_eq_false_iff_ne]
      exact fun h => hhead (congrArg some h.symm)
    obtain ⟨b, more, hmore⟩ := List.exists_cons_of_ne_nil
      (show w ++ (cs.flatMap writer ++ q :: rest) ≠ [] by simp)
    rw [List.cons_append, hmore] at hbody ⊢
    rw [between?, if_neg (by simp [ha])]
    exact hbody

theorem marks?_quote {q : Char} (hq : IsQuote q) (cs : List Char) :
    marks? (q :: cs) = some (⟨false, false⟩, q :: cs) := by
  rcases hq with rfl | rfl <;> rfl

theorem quotedValue?_written {q : Char} (hq : IsQuote q) (s : String) :
    quotedValue? ⟨false, false⟩ (s.toList.flatMap (escapeChar q)) = some (.str s) := by
  have hw : ∀ c ∈ s.toList, Written q c (escapeChar q c) := fun c _ => escapeChar_written hq c
  have hlength := length_le_written hw
  have hchars : (s.toList.map Char.toNat).map charOf = s.toList := by
    rw [List.map_map]
    exact (List.map_congr_left fun c _ => charOf_toNat c).trans (List.map_id _)
  show (unescape? false _ _).map _ = _
  rw [unescape?_written hw (fun h => by cases h) (by omega), Option.map_some]
  show some (Value.str (String.ofList ((s.toList.map Char.toNat).map charOf))) = _
  rw [hchars, String.ofList_toList]

/-- A quoted text is read back, and nothing of what follows is touched. -/
theorem quoted?_quote (s : String) {rest : List Char} (hrest : Apart rest) :
    quoted? ((quote s).toList ++ rest) = some (.str s, rest) := by
  have hq := isQuote_quoteFor s.toList
  have hw : ∀ c ∈ s.toList, Written _ c (escapeChar (quoteFor s.toList) c) := fun c _ => escapeChar_written hq c
  rw [quote_toList, List.cons_append, List.append_assoc, List.singleton_append]
  unfold quoted?
  rw [marks?_quote hq]
  show (between? _).bind _ = _
  rw [between?_written hq hw hrest]
  show (quotedValue? _ _).bind _ = _
  rw [joinLineEnds_written hq hw, quotedValue?_written hq]
  rfl

/-! ## Byte strings -/

theorem hexDigit_ascii : ∀ n < 16, (hexDigit n).toNat < 128 := by decide

theorem escapeByte_ascii {q : Char} (hq : IsQuote q) {b : Nat} {c : Char} (h : c ∈ escapeByte q b) : c.toNat < 128 := by
  have hquote : q.toNat < 128 := by rcases hq with rfl | rfl <;> decide
  have hshort : ∀ d : Char, d.toNat < 128 → c ∈ ['\\', d] → c.toNat < 128 := by
    intro d hd hc
    rcases List.mem_cons.1 hc with rfl | hc
    · decide
    · exact List.mem_singleton.1 hc ▸ hd
  unfold escapeByte at h
  dsimp only at h
  split at h
  · rename_i hescaped
    refine hshort _ ?_ h
    rcases Bool.or_eq_true_iff.1 hescaped with heq | heq
    · exact (eq_of_beq heq).symm ▸ hquote
    · exact (eq_of_beq heq).symm ▸ by decide
  split at h
  · exact hshort 't' (by decide) h
  split at h
  · exact hshort 'n' (by decide) h
  split at h
  · exact hshort 'r' (by decide) h
  split at h
  · rename_i hprint
    rw [Bool.and_eq_true, decide_eq_true_eq, decide_eq_true_eq] at hprint
    rw [List.mem_singleton.1 h, toNat_ofNat (by omega)]
    omega
  · rcases List.mem_cons.1 h with rfl | h
    · decide
    rcases List.mem_cons.1 h with rfl | h
    · decide
    obtain ⟨d, hd, rfl⟩ := exists_of_mem_hexDigits h
    exact hexDigit_ascii d hd

section Bytes

variable {bs : List Nat} (hbytes : ∀ b ∈ bs, b < 256)

include hbytes

theorem quoteBytes_toList : (quoteBytes bs).toList = 'b' :: quoteFor (bs.map Char.ofNat) ::
    ((bs.map Char.ofNat).flatMap (fun c => escapeByte (quoteFor (bs.map Char.ofNat)) c.toNat) ++ [quoteFor (bs.map Char.ofNat)]) := by
  unfold quoteBytes
  rw [String.toList_ofList, List.flatMap_map]
  have heq : bs.flatMap (fun b => escapeByte (quoteFor (bs.map Char.ofNat)) (Char.ofNat b).toNat) =
      bs.flatMap (escapeByte (quoteFor (bs.map Char.ofNat))) :=
    List.flatMap_congr fun b hb => by rw [toNat_ofNat (hbytes b hb)]
  rw [heq]
  rfl

theorem quotedValue?_bytes {q : Char} (hq : IsQuote q) :
    quotedValue? ⟨false, true⟩ ((bs.map Char.ofNat).flatMap fun c => escapeByte q c.toNat) = some (.bytes bs) := by
  have hsmall : ∀ c ∈ bs.map Char.ofNat, c.toNat < 256 := by
    intro c hc
    obtain ⟨b, hb, rfl⟩ := List.mem_map.1 hc
    rw [toNat_ofNat (hbytes b hb)]
    exact hbytes b hb
  have hw : ∀ c ∈ bs.map Char.ofNat, Written q c (escapeByte q c.toNat) := fun c hc => escapeByte_written hq (hsmall c hc)
  have hlength := length_le_written hw
  have hascii : ((bs.map Char.ofNat).flatMap fun c => escapeByte q c.toNat).any (fun c => c.toNat ≥ 128) = false := by
    rw [List.any_eq_false]
    intro c hc
    obtain ⟨d, -, hc⟩ := List.mem_flatMap.1 hc
    have := escapeByte_ascii hq hc
    simpa using this
  have hcodes : (bs.map Char.ofNat).map Char.toNat = bs := by
    rw [List.map_map]
    exact (List.map_congr_left fun b hb => toNat_ofNat (hbytes b hb)).trans (List.map_id _)
  unfold quotedValue?
  rw [hascii]
  show (unescape? true _ _).map Value.bytes = _
  rw [unescape?_written hw (fun _ => hsmall) (by omega), Option.map_some, hcodes]

/-- A byte string is read back, and nothing of what follows is touched. -/
theorem quoted?_quoteBytes {rest : List Char} (hrest : Apart rest) :
    quoted? ((quoteBytes bs).toList ++ rest) = some (.bytes bs, rest) := by
  have hq := isQuote_quoteFor (bs.map Char.ofNat)
  have hvalue := quotedValue?_bytes hbytes hq
  rw [quoteBytes_toList hbytes]
  generalize quoteFor (bs.map Char.ofNat) = q at hq hvalue ⊢
  have hw : ∀ c ∈ bs.map Char.ofNat, Written q c (escapeByte q c.toNat) := by
    intro c hc
    obtain ⟨b, hb, rfl⟩ := List.mem_map.1 hc
    exact escapeByte_written hq (by rw [toNat_ofNat (hbytes b hb)]; exact hbytes b hb)
  have hmarks : ∀ cs, marks? ('b' :: q :: cs) = some (⟨false, true⟩, q :: cs) := by
    intro cs
    rcases hq with rfl | rfl <;> rfl
  rw [List.cons_append, List.cons_append, List.append_assoc, List.singleton_append]
  unfold quoted?
  rw [hmarks]
  show (between? _).bind _ = _
  rw [between?_written hq hw hrest]
  show (quotedValue? _ _).bind _ = _
  rw [joinLineEnds_written hq hw, hvalue]
  rfl

end Bytes

end Amalgam.Literal
