import Amalgam.Proofs.Literal.Locality
import Amalgam.Source.Layout

/-!
# Tokens are written as they stand

Writing a literal into code follows quotes, comments and brackets, and changes the text only behind line ends. What a number, a
name or a bracket is written with goes through unchanged (`Layout.Passes`), and so does a quoted token, which the reader delimits
in the same way as the writer does (`quoted?_spec`).
-/

namespace Amalgam.Source.Layout

open Literal

variable {plain indent : List Char}

/-! ## Steps of writing -/

section Steps

variable {n : Nat} {c q : Char} {u : List Char}

/-- What neither continues a line nor ends one nor quotes is written for what it is. -/
theorem layout_code (hc : c ∉ ['\\', '\r', '\'', '"']) : layout plain indent .code n (c :: u) =
    if isLineEnd c then writtenLineEnd plain [c] ++ (if n = 0 then [] else indent) ++ layout plain indent .code n u
    else if c == '\'' || c == '"' then c :: layout plain indent (.quoted c) n u
    else if c == '#' then c :: layout plain indent .comment n u
    else if c == '(' || c == '[' || c == '{' then c :: layout plain indent .code (n + 1) u
    else if c == ')' || c == ']' || c == '}' then c :: layout plain indent .code (n - 1) u
    else c :: layout plain indent .code n u := by
  rw [layout]
  all_goals
    intros
    subst_vars
    simp at hc

theorem deepest_code (hc : c ∉ ['\\', '\'', '"']) : deepest .code n (c :: u) =
    if c == '\'' || c == '"' then deepest (.quoted c) n u
    else if c == '#' then deepest .comment n u
    else if c == '(' || c == '[' || c == '{' then deepest .code (n + 1) u
    else if c == ')' || c == ']' || c == '}' then max n (deepest .code (n - 1) u)
    else deepest .code n u := by
  rw [deepest]
  all_goals
    intros
    subst_vars
    simp at hc

variable (plain indent) in
/-- A quote with no two more of it behind it opens a text on one line. -/
theorem layout_quote (hq : IsQuote q) (hu : ∀ more, u ≠ q :: q :: more) :
    layout plain indent .code n (q :: u) = q :: layout plain indent (.quoted q) n u ∧
      deepest .code n (q :: u) = deepest (.quoted q) n u := by
  rcases hq with rfl | rfl
  all_goals
    constructor
    · rw [layout]
      · rfl
      all_goals
        intros
        subst_vars
        first | exact hu _ rfl | contradiction
    · rw [deepest]
      · rfl
      all_goals
        intros
        subst_vars
        first | exact hu _ rfl | contradiction

/-- A line end of one character is written for itself. -/
theorem layout_lineEnd (hc : isLineEnd c = true) (hu : ∀ more, c = '\r' → u ≠ '\n' :: more) : layout plain indent .code n (c :: u) =
    writtenLineEnd plain [c] ++ (if n = 0 then [] else indent) ++ layout plain indent .code n u := by
  rw [layout, if_pos hc]
  · rintro _ _ rfl -
    cases hc
  · exact hu
  · rintro _ rfl -
    cases hc
  · rintro _ rfl -
    cases hc

theorem layout_quoted (hc : c ≠ '\\') : layout plain indent (.quoted q) n (c :: u) =
    c :: layout plain indent (if c == q then .code else .quoted q) n u := by
  rw [layout]
  rintro _ _ rfl
  exact absurd rfl hc

theorem deepest_quoted (hc : c ≠ '\\') : deepest (.quoted q) n (c :: u) = deepest (if c == q then .code else .quoted q) n u := by
  rw [deepest]
  rintro _ _ rfl
  exact absurd rfl hc

variable (plain indent) in
theorem layout_tripled (hc : c ≠ '\\') (hu : ¬(c = q ∧ ∃ more, u = q :: q :: more)) :
    layout plain indent (.tripled q) n (c :: u) = c :: layout plain indent (.tripled q) n u ∧
      deepest (.tripled q) n (c :: u) = deepest (.tripled q) n u := by
  obtain _ | ⟨b, _ | ⟨d, more⟩⟩ := u
  · simp [layout, deepest]
  · exact ⟨by rw [layout] <;> simp [hc], by rw [deepest] <;> simp [hc]⟩
  · have hnot : ¬(c == q && b == q && d == q) = true := by
      intro hall
      simp only [Bool.and_eq_true, beq_iff_eq] at hall
      obtain ⟨⟨rfl, rfl⟩, rfl⟩ := hall
      exact hu ⟨rfl, more, rfl⟩
    refine ⟨?_, ?_⟩
    · rw [layout, if_neg hnot]
      exact hc
    · rw [deepest, if_neg hnot]
      exact hc

end Steps

theorem le_deepest (m : Mode) (n : Nat) (cs : List Char) : n ≤ deepest m n cs := by
  fun_induction deepest m n cs with
  | case1 => exact Nat.le_refl _
  | _ => omega

/-- A text without line ends is written as it stands. -/
theorem layout_eq_self {m : Mode} {n : Nat} {cs : List Char} (h : ∀ c ∈ cs, isLineEnd c = false) :
    layout plain indent m n cs = cs := by
  fun_induction layout plain indent m n cs with
  | case1 => rfl
  | case8 | case12 => exact absurd (h '\r' List.mem_cons_self) (by decide)
  | _ => simp_all

/-! ## Pieces written as they stand -/

/-- A piece of a text is written as it stands, and leads from one mode and number of open brackets to another. -/
structure Passes (plain indent : List Char) (m : Mode) (n : Nat) (m' : Mode) (n' : Nat) (t u : List Char) : Prop where
  layout_eq : layout plain indent m n (t ++ u) = t ++ layout plain indent m' n' u
  deepest_le : deepest m' n' u ≤ deepest m n (t ++ u)

section Passes

variable {m m' m'' : Mode} {n n' n'' : Nat} {t t' u : List Char} {c q : Char}

theorem Passes.append (h : Passes plain indent m n m' n' t (t' ++ u)) (h' : Passes plain indent m' n' m'' n'' t' u) :
    Passes plain indent m n m'' n'' (t ++ t') u := by
  refine ⟨?_, ?_⟩
  · rw [List.append_assoc, h.layout_eq, h'.layout_eq, List.append_assoc]
  · rw [List.append_assoc]
    exact Nat.le_trans h'.deepest_le h.deepest_le

theorem Passes.cons (h : Passes plain indent m n m' n' [c] (t ++ u)) (h' : Passes plain indent m' n' m'' n'' t u) :
    Passes plain indent m n m'' n'' (c :: t) u := Passes.append (t := [c]) h h'

theorem passes_nil : Passes plain indent m n m n [] u := ⟨rfl, Nat.le_refl _⟩

theorem not_mem_of_not_special (hc : c ∉ special) : c ∉ ['\\', '\r', '\'', '"'] ∧ c ∉ ['\\', '\'', '"'] := by
  have hsub : ['\\', '\r', '\'', '"'] ⊆ special ∧ ['\\', '\'', '"'] ⊆ special := by decide
  exact ⟨fun h => hc (hsub.1 h), fun h => hc (hsub.2 h)⟩

theorem passes_plain (hc : c ∉ special) : Passes plain indent .code n .code n [c] u := by
  obtain ⟨hlayout, hdeepest⟩ := not_mem_of_not_special hc
  simp only [special, List.mem_cons, List.not_mem_nil, or_false, not_or] at hc
  refine ⟨?_, ?_⟩
  · rw [List.singleton_append, layout_code hlayout]
    simp [isLineEnd, hc]
  · rw [List.singleton_append, deepest_code hdeepest]
    simp [hc]

theorem passes_plains (ht : ∀ c ∈ t, c ∉ special) : Passes plain indent .code n .code n t u := by
  induction t with
  | nil => exact passes_nil
  | cons c t ih => exact (passes_plain (ht c List.mem_cons_self)).cons (ih fun d hd => ht d (List.mem_cons_of_mem _ hd))

theorem passes_open (hc : c ∈ ['(', '[', '{']) : Passes plain indent .code n .code (n + 1) [c] u := by
  simp only [List.mem_cons, List.not_mem_nil, or_false] at hc
  rcases hc with rfl | rfl | rfl <;> exact ⟨rfl, Nat.le_refl _⟩

theorem passes_close (hc : c ∈ [')', ']', '}']) : Passes plain indent .code (n + 1) .code n [c] u := by
  simp only [List.mem_cons, List.not_mem_nil, or_false] at hc
  rcases hc with rfl | rfl | rfl <;> exact ⟨rfl, Nat.le_max_right _ _⟩

/-- A backslash and what it escapes. -/
theorem passes_escape (hm : m ≠ .comment) : Passes plain indent m n m n ['\\', c] u := by
  cases m with
  | comment => exact absurd rfl hm
  | _ => exact ⟨rfl, Nat.le_refl _⟩

end Passes

/-! ## Quoted tokens -/

/-- The mode between the quotes. -/
def Mode.within (triple : Bool) (q : Char) : Mode := if triple then .tripled q else .quoted q

theorem Mode.within_ne_comment (triple : Bool) (q : Char) : Mode.within triple q ≠ .comment := by
  cases triple <;> exact fun h => by cases h

theorem quote_ne {q : Char} (hq : IsQuote q) : q ≠ '\\' ∧ q ≠ '\n' := by rcases hq with rfl | rfl <;> decide

/-- A character that neither quotes nor escapes. -/
theorem passes_within {triple : Bool} {q c : Char} (hslash : c ≠ '\\') (hquote : c ≠ q) (n : Nat) (u : List Char) :
    Passes plain indent (Mode.within triple q) n (Mode.within triple q) n [c] u := by
  cases triple with
  | false =>
    have hmode : (if c == q then Mode.code else .quoted q) = .quoted q := if_neg (by simpa using hquote)
    refine ⟨?_, ?_⟩
    · rw [List.singleton_append, Mode.within, if_neg Bool.false_ne_true, layout_quoted hslash, hmode]
      rfl
    · refine Nat.le_of_eq ?_
      rw [List.singleton_append, Mode.within, if_neg Bool.false_ne_true, deepest_quoted hslash, hmode]
  | true =>
    obtain ⟨hlayout, hdeepest⟩ := layout_tripled plain indent (n := n) (u := u) hslash
      (q := q) (fun h => hquote h.1)
    exact ⟨hlayout, Nat.le_of_eq hdeepest.symm⟩

/-- What is read of a character that escapes nothing. -/
theorem body?_cons {q c : Char} {triple : Bool} {acc u : List Char} (hslash : c ≠ '\\') : body? q triple acc (c :: u) =
    if c == q then
      if triple then
        match u with
        | d :: e :: more =>
          if d == q && e == q then some (acc.reverse, more) else body? q triple (c :: acc) (d :: e :: more)
        | _ => none
      else some (acc.reverse, u)
    else if isLineEnd c && !triple then none
    else body? q triple (c :: acc) u := by
  rw [body?.eq_def]
  split
  · rename_i heq
    exact absurd (List.cons.inj heq).1 hslash
  · rename_i heq
    exact absurd (List.cons.inj heq).1 hslash
  · rename_i heq
    obtain ⟨rfl, rfl⟩ := List.cons.inj heq
    rfl
  · rename_i heq
    cases heq

/-- A piece is what is left of a quoted text, up to its closing quotes: with what has been read it gives the characters of
the text, whatever follows, and it is written as it stands. -/
structure Closes (plain indent : List Char) (q : Char) (triple : Bool) (acc raw t : List Char) : Prop where
  length : (if triple then 3 else 1) ≤ t.length
  reads : ∀ r, body? q triple acc (t ++ r) = some (raw, r)
  passes : ∀ n u, Passes plain indent (Mode.within triple q) n .code n t u

section Closes

variable {q c : Char} {triple : Bool} {acc raw t : List Char}

theorem Closes.ne_nil (h : Closes plain indent q triple acc raw t) : t ≠ [] := by
  rintro rfl
  have hlength := h.length
  cases triple <;> exact absurd hlength (by decide)

theorem Closes.length_cons (h : Closes plain indent q triple acc raw t) (c : Char) :
    (if triple then 3 else 1) ≤ (c :: t).length := Nat.le_trans h.length (Nat.le_succ _)

theorem closes_single (hq : IsQuote q) : Closes plain indent q false acc acc.reverse [q] := by
  have hslash : q ≠ '\\' := (quote_ne hq).1
  refine ⟨Nat.le_refl 1, fun r => ?_, fun n u => ⟨?_, ?_⟩⟩
  · rw [List.singleton_append, body?_cons hslash, if_pos (beq_self_eq_true q), if_neg Bool.false_ne_true]
  · show layout plain indent (.quoted q) n (q :: u) = _
    rw [layout_quoted hslash, if_pos (beq_self_eq_true q)]
    rfl
  · show _ ≤ deepest (.quoted q) n (q :: u)
    refine Nat.le_of_eq ?_
    rw [deepest_quoted hslash, if_pos (beq_self_eq_true q)]

theorem closes_tripled (hq : IsQuote q) : Closes plain indent q true acc acc.reverse [q, q, q] := by
  have hslash : q ≠ '\\' := (quote_ne hq).1
  have hthree : (q == q && q == q && q == q) = true := by simp
  refine ⟨Nat.le_refl 3, fun r => ?_, fun n u => ⟨?_, ?_⟩⟩
  · show body? q true acc (q :: q :: q :: r) = _
    rw [body?_cons hslash]
    simp
  · show layout plain indent (.tripled q) n (q :: q :: q :: u) = _
    rw [layout, if_pos hthree]
    · rfl
    · exact fun heq => hslash heq
  · show _ ≤ deepest (.tripled q) n (q :: q :: q :: u)
    refine Nat.le_of_eq ?_
    rw [deepest, if_pos hthree]
    exact fun heq => hslash heq

theorem Closes.escapedLineEnd (hq : IsQuote q) (h : Closes plain indent q triple ('\n' :: '\r' :: '\\' :: acc) raw t) :
    Closes plain indent q triple acc raw ('\\' :: '\r' :: '\n' :: t) := by
  refine ⟨Nat.le_trans (h.length_cons '\n') (Nat.le_add_right _ 2), h.reads, fun n u => ?_⟩
  have hescape : Passes plain indent (Mode.within triple q) n (Mode.within triple q) n ['\\', '\r'] ('\n' :: t ++ u) :=
    passes_escape (Mode.within_ne_comment triple q)
  exact hescape.append ((passes_within (by decide) (quote_ne hq).2.symm n _).cons (h.passes n u))

theorem Closes.escaped (hline : ∀ more, c = '\r' → t ≠ '\n' :: more) (h : Closes plain indent q triple (c :: '\\' :: acc) raw t) :
    Closes plain indent q triple acc raw ('\\' :: c :: t) := by
  refine ⟨Nat.le_trans (h.length_cons c) (Nat.le_succ _), fun r => ?_, fun n u => ?_⟩
  · rw [List.cons_append, List.cons_append, body?]
    · exact h.reads r
    -- the piece is not empty, so that what follows its first character is not new
    · rintro more rfl heq
      obtain ⟨d, t, rfl⟩ := List.exists_cons_of_ne_nil h.ne_nil
      exact hline t rfl (by rw [(List.cons.inj heq).1])
  · have hescape : Passes plain indent (Mode.within triple q) n (Mode.within triple q) n ['\\', c] (t ++ u) :=
      passes_escape (Mode.within_ne_comment triple q)
    exact hescape.append (h.passes n u)

/-- One or two quotes within three. -/
theorem Closes.quote {d e : Char} (hq : IsQuote q) (hde : ¬(d == q && e == q) = true)
    (h : Closes plain indent q true (q :: acc) raw (d :: e :: t)) : Closes plain indent q true acc raw (q :: d :: e :: t) := by
  have hslash : q ≠ '\\' := (quote_ne hq).1
  refine ⟨h.length_cons q, fun r => ?_, fun n u => ?_⟩
  · rw [List.cons_append, body?_cons hslash, if_pos (beq_self_eq_true q), if_pos rfl]
    simp only [List.cons_append, if_neg hde]
    exact h.reads r
  · have hnot : ¬(q = q ∧ ∃ more, d :: e :: (t ++ u) = q :: q :: more) := by
      rintro ⟨-, more, heq⟩
      obtain ⟨rfl, heq⟩ := List.cons.inj heq
      rw [(List.cons.inj heq).1] at hde
      simp at hde
    obtain ⟨hlayout, hdeepest⟩ := layout_tripled plain indent (n := n) hslash hnot
    have hfirst : Passes plain indent (.tripled q) n (.tripled q) n [q] (d :: e :: t ++ u) := ⟨hlayout, Nat.le_of_eq hdeepest.symm⟩
    exact hfirst.cons (h.passes n u)

theorem Closes.character (hslash : c ≠ '\\') (hne : c ≠ q) (hline : ¬(isLineEnd c && !triple) = true)
    (h : Closes plain indent q triple (c :: acc) raw t) : Closes plain indent q triple acc raw (c :: t) := by
  refine ⟨h.length_cons c, fun r => ?_, fun n u => (passes_within hslash hne n _).cons (h.passes n u)⟩
  rw [List.cons_append, body?_cons hslash, if_neg fun heq => hne (beq_iff_eq.1 heq), if_neg hline]
  exact h.reads r

end Closes

variable (plain indent) in
/-- The characters up to the closing quotes are read whatever follows these, and are written as they stand. -/
theorem body?_spec {q : Char} {triple : Bool} {acc cs raw r : List Char} (hq : IsQuote q) (h : body? q triple acc cs = some (raw, r)) :
    ∃ t, cs = t ++ r ∧ Closes plain indent q triple acc raw t := by
  fun_induction body? q triple acc cs with
  | case1 acc rest ih =>
    obtain ⟨t, rfl, hcloses⟩ := ih h
    exact ⟨_, rfl, hcloses.escapedLineEnd hq⟩
  | case2 acc c rest hline ih =>
    obtain ⟨t, rfl, hcloses⟩ := ih h
    exact ⟨_, rfl, hcloses.escaped fun more hc ht => hline (more ++ r) hc (by rw [ht]; rfl)⟩
  | case3 acc c hc htriple d e more hde =>
    cases h
    simp only [Bool.and_eq_true, beq_iff_eq] at hc hde
    obtain ⟨rfl, rfl⟩ := hde
    subst hc htriple
    exact ⟨_, rfl, closes_tripled hq⟩
  | case4 acc c hc htriple d e more hde hescape hescape' ih =>
    obtain ⟨t, heq, hcloses⟩ := ih h
    simp only [beq_iff_eq] at hc
    subst hc htriple
    obtain _ | ⟨d', _ | ⟨e', t⟩⟩ := t
    · exact absurd rfl hcloses.ne_nil
    · exact absurd hcloses.length (by simp)
    obtain ⟨rfl, heq'⟩ := List.cons.inj heq
    obtain ⟨rfl, rfl⟩ := List.cons.inj heq'
    exact ⟨_, rfl, hcloses.quote hq hde⟩
  | case5 => cases h
  | case6 acc c rest hescape hescape' hc htriple =>
    cases h
    simp only [beq_iff_eq] at hc
    simp only [Bool.not_eq_true] at htriple
    subst hc htriple
    exact ⟨_, rfl, closes_single hq⟩
  | case7 => cases h
  | case8 acc c rest hescape hescape' hc hline ih =>
    obtain ⟨t, rfl, hcloses⟩ := ih h
    have hslash : c ≠ '\\' := by
      rintro rfl
      obtain ⟨d, t, rfl⟩ := List.exists_cons_of_ne_nil hcloses.ne_nil
      exact hescape' d (t ++ r) rfl rfl
    exact ⟨_, rfl, hcloses.character hslash (fun heq => hc (beq_iff_eq.2 heq)) hline⟩
  | case9 => cases h

theorem between?_tripled (q : Char) (u : List Char) : between? (q :: q :: q :: u) = body? q true [] u := by
  show (if q == q && q == q then _ else _) = _
  rw [if_pos (by simp)]

theorem between?_single {q : Char} {u : List Char} (hu : ∀ more, u ≠ q :: q :: more) : between? (q :: u) = body? q false [] u := by
  obtain _ | ⟨b, _ | ⟨c, more⟩⟩ := u
  · rfl
  · rfl
  · show (if q == b && b == c then _ else _) = _
    refine if_neg fun h => ?_
    simp only [Bool.and_eq_true, beq_iff_eq] at h
    obtain ⟨rfl, rfl⟩ := h
    exact hu more rfl

variable (plain indent) in
theorem between?_spec {q : Char} {cs raw r : List Char} (hq : IsQuote q) (h : between? (q :: cs) = some (raw, r)) :
    ∃ t, cs = t ++ r ∧ 1 ≤ t.length ∧ (∀ r', Follows r r' → between? (q :: t ++ r') = some (raw, r')) ∧
      ∀ n u, u <+: r → Passes plain indent .code n .code n (q :: t) u := by
  by_cases htriple : ∃ more, cs = q :: q :: more
  · obtain ⟨more, rfl⟩ := htriple
    rw [between?_tripled] at h
    obtain ⟨t, rfl, -, hread, hpasses⟩ := body?_spec plain indent hq h
    refine ⟨q :: q :: t, rfl, Nat.succ_le_succ (Nat.zero_le _), fun r' _ => ?_, fun n u _ => ?_⟩
    · exact (between?_tripled q (t ++ r')).trans (hread r')
    · have hopen : Passes plain indent .code n (.tripled q) n [q, q, q] (t ++ u) := by
        rcases hq with rfl | rfl <;> exact ⟨rfl, Nat.le_refl _⟩
      exact hopen.append (hpasses n u)
  · have hcs : ∀ more, cs ≠ q :: q :: more := fun more heq => htriple ⟨more, heq⟩
    rw [between?_single hcs] at h
    obtain ⟨t, rfl, hlength, hread, hpasses⟩ := body?_spec plain indent hq h
    have hlength : 1 ≤ t.length := hlength
    -- no third quote comes in with what follows
    have hapart : ∀ x, (x.head? = some q → r.head? = some q) → ∀ more, t ++ x ≠ q :: q :: more := by
      intro x hx more heq
      obtain _ | ⟨a, _ | ⟨b, t⟩⟩ := t
      · exact absurd hlength (by decide)
      · obtain ⟨rfl, rfl⟩ := List.cons.inj heq
        obtain ⟨more', rfl⟩ := List.head?_eq_some_iff.1 (hx rfl)
        exact hcs more' rfl
      · obtain ⟨rfl, heq'⟩ := List.cons.inj heq
        rw [← (List.cons.inj heq').1] at hcs
        exact hcs (t ++ r) rfl
    refine ⟨t, rfl, hlength, fun r' hr' => ?_, fun n u hu => ?_⟩
    · rw [List.cons_append, between?_single (hapart r' fun hhead => ?_)]
      · exact hread r'
      · refine (hr' q hhead).resolve_left ?_
        rcases hq with rfl | rfl <;> decide
    · obtain ⟨w, rfl⟩ := hu
      obtain ⟨hlayout, hdeepest⟩ := layout_quote plain indent (n := n) hq (hapart u fun hhead => by
        obtain ⟨more, rfl⟩ := List.head?_eq_some_iff.1 hhead
        rfl)
      have hopen : Passes plain indent .code n (.quoted q) n [q] (t ++ u) := ⟨hlayout, Nat.le_of_eq hdeepest.symm⟩
      exact hopen.cons (hpasses n u)

def isNoQuote (c : Char) : Bool := c != '\'' && c != '"'

/-- What marks in front of a quote say. -/
def marksOf? (front : List Char) : Option Marks :=
  if front.isEmpty || front = ['u'] then some ⟨false, false⟩
  else if front = ['r'] then some ⟨true, false⟩
  else if front = ['b'] then some ⟨false, true⟩
  else if front = ['b', 'r'] || front = ['r', 'b'] then some ⟨true, true⟩
  else none

theorem marks?_eq (cs : List Char) : marks? cs =
    if (cs.dropWhile isNoQuote).isEmpty then none
    else (marksOf? ((cs.takeWhile isNoQuote).map Char.toLower)).map fun m => (m, cs.dropWhile isNoQuote) := by
  unfold marksOf?
  simp only [apply_ite (Option.map fun m => (m, cs.dropWhile isNoQuote)), Option.map_some, Option.map_none]
  rfl

theorem mem_of_marksOf? {front : List Char} {m : Marks} (h : marksOf? front = some m) : ∀ c ∈ front, c ∈ ['u', 'r', 'b'] := by
  unfold marksOf? at h
  split at h
  · rename_i hfront
    rcases Bool.or_eq_true_iff.1 hfront with hfront | hfront
    · rw [List.isEmpty_iff.1 hfront]
      exact fun _ h => (List.not_mem_nil h).elim
    · rw [of_decide_eq_true hfront]
      decide
  split at h
  · subst front
    decide
  split at h
  · subst front
    decide
  split at h
  · rename_i hfront
    rcases Bool.or_eq_true_iff.1 hfront with hfront | hfront
    · rw [of_decide_eq_true hfront]
      decide
    · rw [of_decide_eq_true hfront]
      decide
  · cases h

/-- The marks in front of a quote are read whatever is quoted, and are written as they stand. -/
theorem marks?_spec {cs rest : List Char} {m : Marks} (h : marks? cs = some (m, rest)) :
    ∃ front q more, cs = front ++ q :: more ∧ rest = q :: more ∧ IsQuote q ∧ (∀ c ∈ front, c ∉ special) ∧
      ∀ x, marks? (front ++ q :: x) = some (m, q :: x) := by
  rw [marks?_eq] at h
  split at h
  · cases h
  obtain ⟨m, hm, heq⟩ := Option.map_eq_some_iff.1 h
  cases heq
  have hfront : ∀ c ∈ cs.takeWhile isNoQuote, isNoQuote c = true := List.all_eq_true.1 List.all_takeWhile
  obtain ⟨q, more, hrest⟩ := List.exists_cons_of_ne_nil (show cs.dropWhile isNoQuote ≠ [] from fun hnil =>
    ‹¬_› (List.isEmpty_iff.2 hnil))
  have hq : isNoQuote q = false := by
    have := List.head?_dropWhile_not isNoQuote cs
    rw [hrest] at this
    simpa using this
  have hquote : IsQuote q := by
    simp only [isNoQuote, Bool.and_eq_false_iff, bne_eq_false_iff_eq] at hq
    exact hq
  refine ⟨cs.takeWhile isNoQuote, q, more, ?_, hrest, hquote, fun c hc hspecial => ?_, fun x => ?_⟩
  · rw [← hrest, List.takeWhile_append_dropWhile]
  · have hlower := mem_of_marksOf? hm _ (List.mem_map_of_mem hc)
    have hno : ∀ c ∈ special, c.toLower ∉ ['u', 'r', 'b'] := by decide
    exact hno c hspecial hlower
  · have hstop : ∀ c ∈ (q :: x).head?, ¬isNoQuote c = true := by
      rintro c ⟨⟩
      rw [hq]
      exact Bool.false_ne_true
    have htake := takeWhile_append_of_stop hfront hstop
    have hdrop : (cs.takeWhile isNoQuote ++ q :: x).dropWhile isNoQuote = q :: x := by
      rw [List.dropWhile_append_of_pos hfront, List.dropWhile_cons_of_neg (hstop q rfl)]
    rw [marks?_eq, htake, hdrop, hm]
    rfl

variable (plain indent) in
/-- A quoted token is read whatever follows, if this begins alike, and is written as it stands. -/
theorem quoted?_spec {cs r : List Char} {v : Value} (h : quoted? cs = some (v, r)) :
    ∃ t, cs = t ++ r ∧ 2 ≤ t.length ∧ (∀ r', Follows r r' → quoted? (t ++ r') = some (v, r')) ∧
      (∀ r', startsQuoted cs = true → startsQuoted (t ++ r') = true) ∧
      ∀ n u, u <+: r → Passes plain indent .code n .code n t u := by
  obtain ⟨⟨m, rest⟩, hmarks, h⟩ := Option.bind_eq_some_iff.1 h
  obtain ⟨⟨raw, rest'⟩, hbetween, h⟩ := Option.bind_eq_some_iff.1 h
  obtain ⟨w, hvalue, h⟩ := Option.bind_eq_some_iff.1 h
  cases h
  obtain ⟨front, q, more, rfl, rfl, hq, hfront, hread⟩ := marks?_spec hmarks
  obtain ⟨t, rfl, hlength, hread', hpasses⟩ := between?_spec plain indent hq hbetween
  refine ⟨front ++ q :: t, by simp, ?_, fun r' hr' => ?_, fun r' hstarts => ?_, fun n u hu => ?_⟩
  · simp only [List.length_append, List.length_cons]
    omega
  · rw [List.append_assoc, List.cons_append]
    refine Option.bind_eq_some_iff.2 ⟨_, hread _, Option.bind_eq_some_iff.2 ⟨_, hread' r' hr', ?_⟩⟩
    exact Option.bind_eq_some_iff.2 ⟨_, hvalue, rfl⟩
  · obtain ⟨c, t, rfl⟩ := List.exists_cons_of_ne_nil (List.length_pos_iff.1 hlength)
    obtain _ | ⟨a, _ | ⟨b, front⟩⟩ := front
    · exact startsQuoted_quote hq c (t ++ r')
    · exact hstarts
    · obtain _ | ⟨d, front⟩ := front <;> exact hstarts
  · exact (passes_plains hfront).append (hpasses n u hu)

end Amalgam.Source.Layout
