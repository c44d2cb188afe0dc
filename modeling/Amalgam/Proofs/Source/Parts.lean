import Amalgam.Proofs.Source.Verbatim

/-!
# How the parts of a literal are read

The reader of parts as steps one after another: brackets and what stands between them (`atom?_round`, `atom?_square`,
`atom?_curly`), tokens (`simple?_eq_some`) and sums (`sum?_succ`). Every step leaves less than it finds (`shrinks`), and a part
begins with a character that opens one (`opens_of_sum?`).
-/

namespace Amalgam.Literal

/-! ## Brackets -/

/-- What stands behind the first part between round brackets. -/
def roundTail? (fuel depth : Nat) (first : Part) (cs : List Char) : Option (Part × List Char) :=
  match cs with
  | ')' :: rest => some (first, rest)
  | ',' :: rest => first.value?.bind fun v =>
    (items? fuel depth ')' [v] (gaps false rest)).map fun y => (.datum (.tuple y.1), y.2)
  | _ => none

/-- What stands between round brackets. -/
def round? (fuel depth : Nat) (cs : List Char) : Option (Part × List Char) :=
  match cs with
  | ')' :: rest => some (.datum (.tuple []), rest)
  | _ => (sum? fuel depth cs).bind fun x => roundTail? fuel depth x.1 (gaps false x.2)

/-- What stands behind the first part between braces. -/
def curlyTail? (fuel depth : Nat) (k : Value) (cs : List Char) : Option (Part × List Char) :=
  match cs with
  | ':' :: rest => (sum? fuel depth (gaps false rest)).bind fun y => y.1.value?.bind fun v =>
    (entries? fuel depth [(k, v)] (gaps false y.2)).bind fun z =>
      if z.1.all fun e => e.1.isHashable then some (.datum (Value.dictOf z.1), z.2) else none
  | ',' :: rest => (items? fuel depth '}' [k] (gaps false rest)).bind fun y =>
    if y.1.all Value.isHashable then some (.datum (Value.setOf y.1), y.2) else none
  | '}' :: rest => if k.isHashable then some (.datum (.set [k]), rest) else none
  | _ => none

/-- What stands between braces. -/
def curly? (fuel depth : Nat) (cs : List Char) : Option (Part × List Char) :=
  match cs with
  | '}' :: rest => some (.datum (.dict []), rest)
  | _ => (sum? fuel depth cs).bind fun x => x.1.value?.bind fun k => curlyTail? fuel depth k (gaps false x.2)

/-- The empty call that may follow the name of the empty set. -/
def called? (depth : Nat) (part : Part) (rest : List Char) : Option (Part × List Char) :=
  match part, trivia (decide (depth < maxDepth)) rest with
  | .setName, '(' :: rest =>
    if depth = 0 then none
    else
      match gaps false rest with
      | ')' :: rest => some (.datum (.set []), rest)
      | _ => none
  | part, _ => some (part, rest)

theorem round?_open {fuel depth : Nat} {cs : List Char} (h : ∀ rest, cs ≠ ')' :: rest) :
    round? fuel depth cs = (sum? fuel depth cs).bind fun x => roundTail? fuel depth x.1 (gaps false x.2) := by
  unfold round?
  split
  · exact absurd rfl (h _)
  · rfl

theorem curly?_open {fuel depth : Nat} {cs : List Char} (h : ∀ rest, cs ≠ '}' :: rest) : curly? fuel depth cs =
    (sum? fuel depth cs).bind fun x => x.1.value?.bind fun k => curlyTail? fuel depth k (gaps false x.2) := by
  unfold curly?
  split
  · exact absurd rfl (h _)
  · rfl

theorem atom?_round (fuel depth : Nat) (cs : List Char) : atom? (fuel + 1) (depth + 1) ('(' :: cs) =
    (round? fuel depth (gaps false cs)).bind fun x => called? (depth + 1) x.1 x.2 := by
  rw [atom?]
  generalize gaps false cs = g
  split
  · rfl
  · rename_i hopen
    rw [round?_open hopen, Option.bind_assoc]
    refine congrArg (Option.bind (sum? fuel depth _)) (funext fun x => ?_)
    obtain ⟨first, rest⟩ := x
    dsimp only
    generalize gaps false rest = g
    split
    · rfl
    · show _ = Option.bind (Option.bind _ _) _
      rw [Option.bind_assoc]
      refine congrArg (Option.bind _) (funext fun v => ?_)
      rw [Option.bind_map]
      rfl
    · rename_i hround hcomma
      have hnone : roundTail? fuel depth first g = none := by
        unfold roundTail?
        split
        · exact (hround _ rfl).elim
        · exact (hcomma _ rfl).elim
        · rfl
      rw [hnone]
      rfl

theorem atom?_square (fuel depth : Nat) (cs : List Char) : atom? (fuel + 1) (depth + 1) ('[' :: cs) =
    (items? fuel depth ']' [] (gaps false cs)).bind fun x => called? (depth + 1) (.datum (.list x.1)) x.2 := by
  rw [atom?]
  rfl

theorem atom?_curly (fuel depth : Nat) (cs : List Char) : atom? (fuel + 1) (depth + 1) ('{' :: cs) =
    (curly? fuel depth (gaps false cs)).bind fun x => called? (depth + 1) x.1 x.2 := by
  rw [atom?]
  generalize gaps false cs = g
  split
  · rfl
  · rename_i hopen
    rw [curly?_open hopen, Option.bind_assoc]
    refine congrArg (Option.bind (sum? fuel depth _)) (funext fun x => ?_)
    obtain ⟨first, rest⟩ := x
    rw [Option.bind_assoc]
    refine congrArg (Option.bind first.value?) (funext fun k => ?_)
    dsimp only
    generalize gaps false rest = g
    split
    · show _ = Option.bind (Option.bind _ _) _
      rw [Option.bind_assoc]
      refine congrArg (Option.bind _) (funext fun y => ?_)
      rw [Option.bind_assoc]
      refine congrArg (Option.bind _) (funext fun v => ?_)
      rw [Option.bind_assoc]
      refine congrArg (Option.bind _) (funext fun z => ?_)
      split <;> rfl
    · show _ = Option.bind (Option.bind _ _) _
      rw [Option.bind_assoc]
      refine congrArg (Option.bind _) (funext fun y => ?_)
      split <;> rfl
    · show _ = Option.bind (if _ then _ else _) _
      split <;> rfl
    · rename_i hcolon hcomma hcurly
      have hnone : curlyTail? fuel depth k g = none := by
        unfold curlyTail?
        split
        · exact (hcolon _ rfl).elim
        · exact (hcomma _ rfl).elim
        · exact (hcurly _ rfl).elim
        · rfl
      rw [hnone]
      rfl

theorem atom?_simple (fuel depth : Nat) (cs : List Char) (h : depth = 0 ∨ ∀ c ∈ cs.head?, c ∉ ['(', '[', '{']) :
    atom? (fuel + 1) depth cs = (simple? (decide (depth < maxDepth)) cs).bind fun x => called? depth x.1 x.2 := by
  rw [atom?]
  · rfl
  all_goals
    rintro _ _ rfl rfl
    rcases h with h | h
    · cases h
    · exact h _ rfl (by decide)

/-! ## Items -/

/-- What stands behind an item: a comma and more items, or the closing bracket. -/
def itemsTail? (fuel depth : Nat) (close : Char) (acc : List Value) (cs : List Char) : Option (List Value × List Char) :=
  match cs with
  | ',' :: rest => items? fuel depth close acc (gaps false rest)
  | d :: rest => if d == close then some (acc.reverse, rest) else none
  | [] => none

theorem items?_cons (fuel depth : Nat) (close : Char) (acc : List Value) (c : Char) (rest : List Char) :
    items? (fuel + 1) depth close acc (c :: rest) = if c == close then some (acc.reverse, rest) else
      (sum? fuel depth (c :: rest)).bind fun x => x.1.value?.bind fun v => itemsTail? fuel depth close (v :: acc) (gaps false x.2) := by
  rw [items?]
  rfl

/-! ## Entries -/

/-- What stands behind the key of an entry. -/
def pair? (fuel depth : Nat) (k : Value) (cs : List Char) : Option ((Value × Value) × List Char) :=
  match cs with
  | ':' :: rest => (sum? fuel depth (gaps false rest)).bind fun y => y.1.value?.map fun v => ((k, v), y.2)
  | _ => none

/-- One entry of a dict. -/
def keyed? (fuel depth : Nat) (cs : List Char) : Option ((Value × Value) × List Char) :=
  (sum? fuel depth cs).bind fun x => x.1.value?.bind fun k => pair? fuel depth k (gaps false x.2)

section Entries

variable {fuel depth : Nat} {acc : List (Value × Value)} {cs rest : List Char}

theorem entries?_closed : entries? (fuel + 1) depth acc ('}' :: rest) = some (acc.reverse, rest) := by
  rw [entries?]

theorem entries?_comma (h : gaps false cs = '}' :: rest) : entries? (fuel + 1) depth acc (',' :: cs) = some (acc.reverse, rest) := by
  rw [entries?, h]
  rfl

theorem entries?_more (h : ∀ rest, gaps false cs ≠ '}' :: rest) : entries? (fuel + 1) depth acc (',' :: cs) =
    (keyed? fuel depth (gaps false cs)).bind fun x => entries? fuel depth (x.1 :: acc) (gaps false x.2) := by
  rw [entries?]
  generalize gaps false cs = g at h ⊢
  split
  · exact absurd rfl (h _)
  · unfold keyed?
    rw [Option.bind_assoc]
    refine congrArg (Option.bind _) (funext fun x => ?_)
    obtain ⟨first, rest⟩ := x
    rw [Option.bind_assoc]
    refine congrArg (Option.bind _) (funext fun k => ?_)
    dsimp only
    generalize gaps false rest = g
    split
    · show _ = Option.bind (Option.bind _ _) _
      rw [Option.bind_assoc]
      refine congrArg (Option.bind _) (funext fun y => ?_)
      rw [Option.bind_map]
      rfl
    · rename_i hcolon
      have hnone : pair? fuel depth k g = none := by
        unfold pair?
        split
        · exact (hcolon _ rfl).elim
        · rfl
      rw [hnone]
      rfl

/-- The entries end with a bracket, with a comma and a bracket, or go on with an entry behind a comma. -/
theorem entries?_eq_some {es : List (Value × Value)} {r : List Char} (h : entries? (fuel + 1) depth acc cs = some (es, r)) :
    (cs = '}' :: r ∧ es = acc.reverse) ∨
      (∃ rest, cs = ',' :: rest ∧ gaps false rest = '}' :: r ∧ es = acc.reverse) ∨
      ∃ rest e more, cs = ',' :: rest ∧ keyed? fuel depth (gaps false rest) = some (e, more) ∧
        entries? fuel depth (e :: acc) (gaps false more) = some (es, r) := by
  have hcases : (∃ rest, cs = '}' :: rest) ∨ ∃ rest, cs = ',' :: rest := by
    rw [entries?.eq_def] at h
    dsimp only at h
    split at h
    · exact Or.inl ⟨_, rfl⟩
    · exact Or.inr ⟨_, rfl⟩
    · cases h
  obtain ⟨rest, rfl⟩ | ⟨rest, rfl⟩ := hcases
  · rw [entries?_closed] at h
    cases h
    exact Or.inl ⟨rfl, rfl⟩
  · by_cases hclosed : ∃ more, gaps false rest = '}' :: more
    · obtain ⟨more, hmore⟩ := hclosed
      rw [entries?_comma hmore] at h
      cases h
      exact Or.inr (Or.inl ⟨rest, rfl, hmore, rfl⟩)
    · rw [entries?_more fun more heq => hclosed ⟨more, heq⟩] at h
      obtain ⟨⟨e, more⟩, he, h⟩ := Option.bind_eq_some_iff.1 h
      exact Or.inr (Or.inr ⟨rest, e, more, rfl, he, h⟩)

end Entries

/-! ## Sums -/

/-- The value of a part that a sum may begin with. -/
def Part.term? : Part → Option Value
  | number v => some v
  | signed v => some v
  | _ => none

/-- A bare number behind a sign. -/
def operand? (fuel depth : Nat) (cs : List Char) : Option (Value × List Char) :=
  (atom? fuel depth (trivia (decide (depth < maxDepth)) cs)).bind fun x =>
    match x.1 with
    | .number w => some (w, x.2)
    | _ => none

/-- The first term of a sum. -/
def signed? (fuel depth : Nat) (cs : List Char) : Option (Part × List Char) :=
  match cs with
  | '-' :: rest => (operand? fuel depth rest).map fun x => (.signed (negate x.1), x.2)
  | '+' :: rest => (operand? fuel depth rest).map fun x => (.signed x.1, x.2)
  | _ => atom? fuel depth cs

theorem signed?_of_ne {fuel depth : Nat} {cs : List Char} (hminus : ∀ rest, cs ≠ '-' :: rest) (hplus : ∀ rest, cs ≠ '+' :: rest) :
    signed? fuel depth cs = atom? fuel depth cs := by
  unfold signed?
  split
  · exact absurd rfl (hminus _)
  · exact absurd rfl (hplus _)
  · rfl

/-- The second term of a sum, the sign in front of it read. -/
def addend? (fuel depth : Nat) (minus : Bool) (left : Part) (cs : List Char) : Option (Part × List Char) :=
  left.term?.bind fun v => (operand? fuel depth cs).bind fun x =>
    (addImaginary? minus v x.1).map fun u => (.datum u, x.2)

/-- What follows the first term of a sum, if anything does. -/
def added? (fuel depth : Nat) (left : Part) (rest : List Char) : Option (Part × List Char) :=
  match trivia (decide (depth < maxDepth)) rest with
  | '+' :: more => addend? fuel depth false left more
  | '-' :: more => addend? fuel depth true left more
  | _ => some (left, rest)

theorem signed_eq_operand? (fuel depth : Nat) (negative : Bool) (rest : List Char) : (do
    match ← atom? fuel depth (trivia (decide (depth < maxDepth)) rest) with
    | (.number v, rest) => some (Part.signed (if negative then negate v else v), rest)
    | _ => none) = (operand? fuel depth rest).map fun x => (Part.signed (if negative then negate x.1 else x.1), x.2) := by
  unfold operand?
  rw [Option.map_bind]
  refine congrArg (Option.bind _) (funext fun x => ?_)
  obtain ⟨part, rest⟩ := x
  cases part <;> rfl

theorem datum_eq_operand? (fuel depth : Nat) (minus : Bool) (v : Value) (more : List Char) : (do
    match ← atom? fuel depth (trivia (decide (depth < maxDepth)) more) with
    | (.number w, rest) => (addImaginary? minus v w).map fun x => (Part.datum x, rest)
    | _ => none) = (operand? fuel depth more).bind fun x => (addImaginary? minus v x.1).map fun u => (Part.datum u, x.2) := by
  unfold operand?
  rw [Option.bind_assoc]
  refine congrArg (Option.bind _) (funext fun x => ?_)
  obtain ⟨part, rest⟩ := x
  cases part <;> rfl

theorem sum_eq_addend? (fuel depth : Nat) (minus : Bool) (left : Part) (more : List Char) : (do
    let v ← match left with
      | .number v => some v
      | .signed v => some v
      | _ => none
    match ← atom? fuel depth (trivia (decide (depth < maxDepth)) more) with
    | (.number w, rest) => (addImaginary? minus v w).map fun x => (Part.datum x, rest)
    | _ => none) = addend? fuel depth minus left more := by
  unfold addend?
  cases left with
  | number v => exact datum_eq_operand? fuel depth minus v more
  | signed v => exact datum_eq_operand? fuel depth minus v more
  | datum v => rfl
  | setName => rfl

theorem sum_eq_added? (fuel depth : Nat) (left : Part) (rest : List Char) : (match trivia (decide (depth < maxDepth)) rest with
    | '+' :: more => do
      let v ← match left with
        | .number v => some v
        | .signed v => some v
        | _ => none
      match ← atom? fuel depth (trivia (decide (depth < maxDepth)) more) with
      | (.number w, rest) => (addImaginary? false v w).map fun x => (Part.datum x, rest)
      | _ => none
    | '-' :: more => do
      let v ← match left with
        | .number v => some v
        | .signed v => some v
        | _ => none
      match ← atom? fuel depth (trivia (decide (depth < maxDepth)) more) with
      | (.number w, rest) => (addImaginary? true v w).map fun x => (Part.datum x, rest)
      | _ => none
    | _ => some (left, rest)) = added? fuel depth left rest := by
  unfold added?
  generalize trivia (decide (depth < maxDepth)) rest = g
  split
  · exact sum_eq_addend? fuel depth false left _
  · exact sum_eq_addend? fuel depth true left _
  · rfl

theorem sum?_succ (fuel depth : Nat) (cs : List Char) :
    sum? (fuel + 1) depth cs = (signed? fuel depth cs).bind fun x => added? fuel depth x.1 x.2 := by
  have hbind (first : Option (Part × List Char)) (K : Part × List Char → Option (Part × List Char))
      (hK : ∀ left rest, K (left, rest) = added? fuel depth left rest) : first.bind K = first.bind fun x => added? fuel depth x.1 x.2 :=
    congrArg (Option.bind first) (funext fun x => hK x.1 x.2)
  have hadded := sum_eq_added? fuel depth
  rw [sum?.eq_def]
  dsimp only
  split
  · rename_i rest
    exact (hbind _ _ hadded).trans (congrArg (Option.bind · _) (signed_eq_operand? fuel depth true rest))
  · rename_i rest
    exact (hbind _ _ hadded).trans (congrArg (Option.bind · _) (signed_eq_operand? fuel depth false rest))
  · rename_i hminus hplus
    rw [signed?_of_ne hminus hplus]
    exact hbind _ _ hadded

/-! ## Tokens -/

/-- A token is an ellipsis, or quoted texts in a row, or a number or a word. -/
theorem simple?_eq_some {inside : Bool} {cs r : List Char} {part : Part} (h : simple? inside cs = some (part, r)) :
    (cs = '.' :: '.' :: '.' :: r ∧ part = .datum .ellipsis) ∨
      (startsQuoted cs = true ∧ ∃ v w rest, quoted? cs = some (v, rest) ∧
        moreQuoted? inside (rest.length + 1) v rest = some (w, r) ∧ part = .datum w) ∨
      bare? cs = some (part, r) := by
  unfold simple? at h
  split at h
  · cases h
    exact Or.inl ⟨rfl, rfl⟩
  · split at h
    · rename_i hquoted
      obtain ⟨⟨v, rest⟩, hv, h⟩ := Option.bind_eq_some_iff.1 h
      obtain ⟨⟨w, rest'⟩, hw, h⟩ := Option.bind_eq_some_iff.1 h
      cases h
      exact Or.inr (Or.inl ⟨hquoted, v, w, rest, hv, hw, rfl⟩)
    · exact Or.inr (Or.inr h)

theorem simple?_of_quoted {inside : Bool} {cs rest r : List Char} {v w : Value} (hstarts : startsQuoted cs = true)
    (hv : quoted? cs = some (v, rest)) (hw : moreQuoted? inside (rest.length + 1) v rest = some (w, r)) :
    simple? inside cs = some (.datum w, r) := by
  unfold simple?
  split
  · cases hstarts
  · rw [if_pos hstarts]
    exact Option.bind_eq_some_iff.2 ⟨_, hv, Option.bind_eq_some_iff.2 ⟨_, hw, rfl⟩⟩

/-! ## What is left is less -/

/-- A text is what is left behind the first characters of another one. -/
def Leaves (cs r : List Char) : Prop := ∃ c more, cs = c :: more ∧ r <:+ more

section Leaves

variable {cs cs' r r' : List Char}

theorem Leaves.length_lt (h : Leaves cs r) : r.length < cs.length := by
  obtain ⟨c, more, rfl, hr⟩ := h
  exact Nat.lt_succ_of_le hr.length_le

theorem Leaves.suffix (h : Leaves cs r) : r <:+ cs := by
  obtain ⟨c, more, rfl, hr⟩ := h
  exact hr.trans (List.suffix_cons c more)

theorem Leaves.of_suffix (h : Leaves cs r) (hr : r' <:+ r) : Leaves cs r' := by
  obtain ⟨c, more, rfl, hmore⟩ := h
  exact ⟨c, more, rfl, hr.trans hmore⟩

theorem leaves_append {t : List Char} (ht : t ≠ []) (r : List Char) : Leaves (t ++ r) r := by
  obtain ⟨c, t, rfl⟩ := List.exists_cons_of_ne_nil ht
  exact ⟨c, t ++ r, rfl, List.suffix_append t r⟩

theorem leaves_cons {c : Char} (h : r <:+ cs) : Leaves (c :: cs) r := ⟨c, cs, rfl, h⟩

theorem Leaves.behind (h : Leaves cs r) (hcs : cs <:+ cs') : Leaves cs' r := by
  obtain ⟨t, rfl⟩ := hcs
  cases t with
  | nil => exact h
  | cons c t => exact leaves_cons (h.suffix.trans (List.suffix_append t cs))

end Leaves

theorem leaves_quoted {cs r : List Char} {v : Value} (h : quoted? cs = some (v, r)) : Leaves cs r := by
  obtain ⟨t, rfl, hlength, -⟩ := Source.Layout.quoted?_spec [] [] h
  exact leaves_append (by rintro rfl; exact absurd hlength (by decide)) r

theorem suffix_moreQuoted {inside : Bool} {fuel : Nat} {v w : Value} {cs r : List Char}
    (h : moreQuoted? inside fuel v cs = some (w, r)) : r <:+ cs := by
  induction fuel generalizing v cs with
  | zero => cases h
  | succ fuel ih =>
    rw [moreQuoted?] at h
    dsimp only at h
    split at h
    · obtain ⟨⟨u, rest⟩, hu, h⟩ := Option.bind_eq_some_iff.1 h
      obtain ⟨joined, -, h⟩ := Option.bind_eq_some_iff.1 h
      exact ((ih h).trans (leaves_quoted hu).suffix).trans (suffix_trivia inside cs)
    · cases h
      exact List.suffix_rfl

theorem leaves_bare {cs r : List Char} {part : Part} (h : bare? cs = some (part, r)) : Leaves cs r := by
  have hlength := length_bare h
  obtain ⟨t, rfl, -⟩ := isLocal_bare h
  exact leaves_append (by rintro rfl; exact Nat.lt_irrefl _ hlength) r

theorem leaves_simple {inside : Bool} {cs r : List Char} {part : Part} (h : simple? inside cs = some (part, r)) : Leaves cs r := by
  rcases simple?_eq_some h with ⟨rfl, -⟩ | ⟨-, v, w, rest, hv, hw, -⟩ | hbare
  · exact leaves_append (t := ['.', '.', '.']) (List.cons_ne_nil _ _) r
  · exact (leaves_quoted hv).of_suffix (suffix_moreQuoted hw)
  · exact leaves_bare hbare

/-- What may follow a part of a literal: a comma, a colon, a closing bracket or a sign. -/
def closers : List Char := [',', ':', ')', ']', '}', '+', '-']

/-- Readers with some fuel leave less than they find. -/
structure Shrinks (fuel : Nat) : Prop where
  atom : ∀ {depth : Nat} {cs r : List Char} {part : Part}, atom? fuel depth cs = some (part, r) → Leaves cs r
  sum : ∀ {depth : Nat} {cs r : List Char} {part : Part}, sum? fuel depth cs = some (part, r) → Leaves cs r
  items : ∀ {depth : Nat} {close : Char} {acc vs : List Value} {cs r : List Char},
    items? fuel depth close acc cs = some (vs, r) → Leaves cs r
  entries : ∀ {depth : Nat} {acc es : List (Value × Value)} {cs r : List Char},
    entries? fuel depth acc cs = some (es, r) → Leaves cs r

theorem called?_of_ne {depth : Nat} {part : Part} (h : part ≠ .setName) (cs : List Char) : called? depth part cs = some (part, cs) := by
  unfold called?
  split
  · exact absurd rfl h
  · rfl

theorem suffix_called {depth : Nat} {part part' : Part} {cs r : List Char} (h : called? depth part cs = some (part', r)) :
    r <:+ cs := by
  unfold called? at h
  split at h
  · rename_i rest htrivia
    split at h
    · cases h
    have hcs := suffix_trivia (decide (depth < maxDepth)) cs
    rw [htrivia] at hcs
    split at h
    · rename_i rest' hgaps
      cases h
      have hrest := suffix_gaps false rest
      rw [hgaps] at hrest
      exact (leaves_cons ((leaves_cons List.suffix_rfl).suffix.trans hrest)).suffix.trans hcs
    · cases h
  · cases h
    exact List.suffix_rfl

/-- What is left behind a closer that follows a part is left behind the part. -/
theorem suffix_of_closer {c : Char} {cs r more : List Char} (hgaps : gaps false cs = c :: more) (hr : r <:+ more) : r <:+ cs :=
  (hr.trans (List.suffix_cons c more)).trans (hgaps ▸ suffix_gaps false cs)

/-- An atom begins with a bracket that may open, or it is a token. -/
theorem bracket_or_token (depth : Nat) (cs : List Char) : (depth = 0 ∨ ∀ c ∈ cs.head?, c ∉ ['(', '[', '{']) ∨
    ∃ d rest, depth = d + 1 ∧ (cs = '(' :: rest ∨ cs = '[' :: rest ∨ cs = '{' :: rest) := by
  cases depth with
  | zero => exact Or.inl (Or.inl rfl)
  | succ d =>
    cases cs with
    | nil => exact Or.inl (Or.inr fun _ h => by cases h)
    | cons c rest =>
      by_cases hc : c ∈ ['(', '[', '{']
      · refine Or.inr ⟨d, rest, rfl, ?_⟩
        simp only [List.mem_cons, List.not_mem_nil, or_false] at hc
        rcases hc with rfl | rfl | rfl
        · exact Or.inl rfl
        · exact Or.inr (Or.inl rfl)
        · exact Or.inr (Or.inr rfl)
      · refine Or.inl (Or.inr ?_)
        rintro d ⟨⟩
        exact hc

section Shrinks

variable {fuel depth : Nat} {part : Part} {cs r : List Char} (ih : Shrinks fuel)

include ih

theorem Shrinks.sum_skip (h : sum? fuel depth (gaps false cs) = some (part, r)) : Leaves cs r := (ih.sum h).behind (suffix_gaps false cs)

theorem Shrinks.items_skip {close : Char} {acc vs : List Value} (h : items? fuel depth close acc (gaps false cs) = some (vs, r)) :
    Leaves cs r := (ih.items h).behind (suffix_gaps false cs)

theorem Shrinks.entries_skip {acc es : List (Value × Value)} (h : entries? fuel depth acc (gaps false cs) = some (es, r)) :
    Leaves cs r := (ih.entries h).behind (suffix_gaps false cs)

theorem Shrinks.roundTail {first : Part} (h : roundTail? fuel depth first cs = some (part, r)) :
    ∃ c more, cs = c :: more ∧ c ∈ closers ∧ r <:+ more := by
  unfold roundTail? at h
  split at h
  · cases h
    exact ⟨_, _, rfl, by decide, List.suffix_rfl⟩
  · obtain ⟨v, -, h⟩ := Option.bind_eq_some_iff.1 h
    obtain ⟨⟨vs, r⟩, hvs, heq⟩ := Option.map_eq_some_iff.1 h
    cases heq
    exact ⟨_, _, rfl, by decide, (ih.items_skip hvs).suffix⟩
  · cases h

theorem Shrinks.round (h : round? fuel depth cs = some (part, r)) : Leaves cs r := by
  unfold round? at h
  split at h
  · cases h
    exact leaves_cons List.suffix_rfl
  · obtain ⟨⟨first, rest⟩, hfirst, h⟩ := Option.bind_eq_some_iff.1 h
    obtain ⟨c, more, hgaps, -, hr⟩ := ih.roundTail h
    exact (ih.sum hfirst).of_suffix (suffix_of_closer hgaps hr)

theorem Shrinks.curlyTail {k : Value} (h : curlyTail? fuel depth k cs = some (part, r)) :
    ∃ c more, cs = c :: more ∧ c ∈ closers ∧ r <:+ more := by
  unfold curlyTail? at h
  split at h
  · obtain ⟨⟨second, more⟩, hsecond, h⟩ := Option.bind_eq_some_iff.1 h
    obtain ⟨v, -, h⟩ := Option.bind_eq_some_iff.1 h
    obtain ⟨⟨es, r⟩, hes, h⟩ := Option.bind_eq_some_iff.1 h
    split at h
    · cases h
      exact ⟨_, _, rfl, by decide, (ih.entries_skip hes).suffix.trans (ih.sum_skip hsecond).suffix⟩
    · cases h
  · obtain ⟨⟨vs, r⟩, hvs, h⟩ := Option.bind_eq_some_iff.1 h
    split at h
    · cases h
      exact ⟨_, _, rfl, by decide, (ih.items_skip hvs).suffix⟩
    · cases h
  · split at h
    · cases h
      exact ⟨_, _, rfl, by decide, List.suffix_rfl⟩
    · cases h
  · cases h

theorem Shrinks.curly (h : curly? fuel depth cs = some (part, r)) : Leaves cs r := by
  unfold curly? at h
  split at h
  · cases h
    exact leaves_cons List.suffix_rfl
  · obtain ⟨⟨first, rest⟩, hfirst, h⟩ := Option.bind_eq_some_iff.1 h
    obtain ⟨k, -, h⟩ := Option.bind_eq_some_iff.1 h
    obtain ⟨c, more, hgaps, -, hr⟩ := ih.curlyTail h
    exact (ih.sum hfirst).of_suffix (suffix_of_closer hgaps hr)

theorem Shrinks.atom_succ (h : atom? (fuel + 1) depth cs = some (part, r)) : Leaves cs r := by
  rcases bracket_or_token depth cs with htoken | ⟨depth, rest, rfl, rfl | rfl | rfl⟩
  · rw [atom?_simple fuel depth cs htoken] at h
    obtain ⟨⟨first, more⟩, hfirst, h⟩ := Option.bind_eq_some_iff.1 h
    exact (leaves_simple hfirst).of_suffix (suffix_called h)
  · rw [atom?_round] at h
    obtain ⟨⟨first, more⟩, hfirst, h⟩ := Option.bind_eq_some_iff.1 h
    exact leaves_cons ((suffix_called h).trans ((ih.round hfirst).behind (suffix_gaps false rest)).suffix)
  · rw [atom?_square] at h
    obtain ⟨⟨vs, more⟩, hvs, h⟩ := Option.bind_eq_some_iff.1 h
    exact leaves_cons ((suffix_called h).trans (ih.items_skip hvs).suffix)
  · rw [atom?_curly] at h
    obtain ⟨⟨first, more⟩, hfirst, h⟩ := Option.bind_eq_some_iff.1 h
    exact leaves_cons ((suffix_called h).trans ((ih.curly hfirst).behind (suffix_gaps false rest)).suffix)

theorem Shrinks.operand {v : Value} (h : operand? fuel depth cs = some (v, r)) : Leaves cs r := by
  obtain ⟨⟨part, rest⟩, hpart, h⟩ := Option.bind_eq_some_iff.1 h
  have hleaves : Leaves cs rest := (ih.atom hpart).behind (suffix_trivia _ cs)
  cases part <;> cases h
  exact hleaves

theorem Shrinks.signed (h : signed? fuel depth cs = some (part, r)) : Leaves cs r := by
  unfold signed? at h
  split at h
  · obtain ⟨⟨v, r⟩, hv, heq⟩ := Option.map_eq_some_iff.1 h
    cases heq
    exact leaves_cons (ih.operand hv).suffix
  · obtain ⟨⟨v, r⟩, hv, heq⟩ := Option.map_eq_some_iff.1 h
    cases heq
    exact leaves_cons (ih.operand hv).suffix
  · exact ih.atom h

theorem Shrinks.addend {minus : Bool} {left : Part} (h : addend? fuel depth minus left cs = some (part, r)) : Leaves cs r := by
  obtain ⟨v, -, h⟩ := Option.bind_eq_some_iff.1 h
  obtain ⟨⟨w, rest⟩, hw, h⟩ := Option.bind_eq_some_iff.1 h
  obtain ⟨u, -, heq⟩ := Option.map_eq_some_iff.1 h
  cases heq
  exact ih.operand hw

theorem Shrinks.added {left : Part} (h : added? fuel depth left cs = some (part, r)) : r <:+ cs := by
  have hcs := suffix_trivia (decide (depth < maxDepth)) cs
  unfold added? at h
  split at h
  · rename_i more htrivia
    rw [htrivia] at hcs
    exact (leaves_cons (ih.addend h).suffix).suffix.trans hcs
  · rename_i more htrivia
    rw [htrivia] at hcs
    exact (leaves_cons (ih.addend h).suffix).suffix.trans hcs
  · cases h
    exact List.suffix_rfl

theorem Shrinks.sum_succ (h : sum? (fuel + 1) depth cs = some (part, r)) : Leaves cs r := by
  rw [sum?_succ] at h
  obtain ⟨⟨left, rest⟩, hleft, h⟩ := Option.bind_eq_some_iff.1 h
  exact (ih.signed hleft).of_suffix (ih.added h)

theorem Shrinks.itemsTail {close : Char} {acc vs : List Value} (h : itemsTail? fuel depth close acc cs = some (vs, r)) :
    ∃ c more, cs = c :: more ∧ (c = ',' ∨ c = close) ∧ r <:+ more := by
  unfold itemsTail? at h
  split at h
  · exact ⟨_, _, rfl, Or.inl rfl, (ih.items_skip h).suffix⟩
  · split at h
    · rename_i hclose
      cases h
      exact ⟨_, _, rfl, Or.inr (eq_of_beq hclose), List.suffix_rfl⟩
    · cases h
  · cases h

theorem Shrinks.items_succ {close : Char} {acc vs : List Value} (h : items? (fuel + 1) depth close acc cs = some (vs, r)) :
    Leaves cs r := by
  cases cs with
  | nil =>
    rw [items?] at h
    cases h
  | cons c cs =>
    rw [items?_cons] at h
    split at h
    · cases h
      exact leaves_cons List.suffix_rfl
    · obtain ⟨⟨part, rest⟩, hpart, h⟩ := Option.bind_eq_some_iff.1 h
      obtain ⟨v, -, h⟩ := Option.bind_eq_some_iff.1 h
      obtain ⟨d, more, hgaps, -, hr⟩ := ih.itemsTail h
      exact (ih.sum hpart).of_suffix (suffix_of_closer hgaps hr)

theorem Shrinks.pair {k : Value} {e : Value × Value} (h : pair? fuel depth k cs = some (e, r)) :
    ∃ more, cs = ':' :: more ∧ r <:+ more := by
  unfold pair? at h
  split at h
  · obtain ⟨⟨second, r'⟩, hsecond, h⟩ := Option.bind_eq_some_iff.1 h
    obtain ⟨v, -, heq⟩ := Option.map_eq_some_iff.1 h
    cases heq
    exact ⟨_, rfl, (ih.sum_skip hsecond).suffix⟩
  · cases h

theorem Shrinks.entry {e : Value × Value} (h : keyed? fuel depth cs = some (e, r)) : Leaves cs r := by
  obtain ⟨⟨first, rest⟩, hfirst, h⟩ := Option.bind_eq_some_iff.1 h
  obtain ⟨k, -, h⟩ := Option.bind_eq_some_iff.1 h
  obtain ⟨more, hgaps, hr⟩ := ih.pair h
  exact (ih.sum hfirst).of_suffix (suffix_of_closer hgaps hr)

theorem Shrinks.entries_succ {acc es : List (Value × Value)} (h : entries? (fuel + 1) depth acc cs = some (es, r)) :
    Leaves cs r := by
  rcases entries?_eq_some h with ⟨rfl, -⟩ | ⟨rest, rfl, hgaps, -⟩ | ⟨rest, e, more, rfl, he, h⟩
  · exact leaves_cons List.suffix_rfl
  · exact leaves_cons (suffix_of_closer hgaps List.suffix_rfl)
  · exact leaves_cons ((ih.entries_skip h).suffix.trans ((ih.entry he).behind (suffix_gaps false rest)).suffix)

end Shrinks

theorem shrinks (fuel : Nat) : Shrinks fuel := by
  induction fuel with
  | zero =>
    refine ⟨fun h => ?_, fun h => ?_, fun h => ?_, fun h => ?_⟩
    · rw [atom?] at h
      cases h
    · rw [sum?] at h
      cases h
    · rw [items?] at h
      cases h
    · rw [entries?] at h
      cases h
  | succ fuel ih => exact ⟨ih.atom_succ, ih.sum_succ, ih.items_succ, ih.entries_succ⟩

/-! ## What a part begins with -/

/-- The characters that begin no token that carries a value. -/
def nonTokens : List Char := [' ', '\t', '\x0c', '\\', '#', '\n', '\r', ')', ']', '}', '(', '[', '{']

theorem opens_of_not_nonTokens {c : Char} (h : c ∉ nonTokens) : Opens c := fun hc => h (by
  have hsub : [' ', '\t', '\x0c', '\\', '#', '\n', '\r', ')', ']', '}'] ⊆ nonTokens := by decide
  exact hsub hc)

theorem isAlpha_of_nonTokens : ∀ c ∈ nonTokens, c.isAlpha = false ∧ c.isDigit = false ∧ c ≠ '.' ∧ ¬IsQuote c := by
  unfold IsQuote
  decide

theorem isNameStart_of_nonTokens : ∀ c ∈ nonTokens, Text.isNameStart c = false := by decide +kernel

theorem not_nonTokens_of_startsQuoted {c : Char} {cs : List Char} (h : startsQuoted (c :: cs) = true) : c ∉ nonTokens := by
  intro hc
  obtain ⟨halpha, -, -, hquote⟩ := isAlpha_of_nonTokens c hc
  obtain ⟨hsingle, hdouble⟩ := not_or.1 hquote
  rcases cs with _ | ⟨a, _ | ⟨b, cs⟩⟩ <;> simp [startsQuoted, halpha, hsingle, hdouble] at h

theorem not_nonTokens_of_bare {c : Char} {cs : List Char} {x : Part × List Char} (h : bare? (c :: cs) = some x) : c ∉ nonTokens := by
  intro hc
  obtain ⟨-, hdigit, hdot, -⟩ := isAlpha_of_nonTokens c hc
  rw [bare?, if_neg (by simp [hdigit, hdot]), isNameStart_of_nonTokens c hc] at h
  cases h

theorem exists_token_of_simple {inside : Bool} {cs r : List Char} {part : Part} (h : simple? inside cs = some (part, r)) :
    ∃ c more, cs = c :: more ∧ c ∉ nonTokens := by
  have hlength := (leaves_simple h).length_lt
  obtain ⟨c, more, rfl⟩ := List.exists_cons_of_ne_nil (List.length_pos_iff.1 (Nat.zero_lt_of_lt hlength))
  refine ⟨c, more, rfl, ?_⟩
  rcases simple?_eq_some h with ⟨heq, -⟩ | ⟨hstarts, -⟩ | hbare
  · rw [(List.cons.inj heq).1]
    decide
  · exact not_nonTokens_of_startsQuoted hstarts
  · exact not_nonTokens_of_bare hbare

theorem exists_opens_of_atom {fuel depth : Nat} {cs r : List Char} {part : Part} (h : atom? fuel depth cs = some (part, r)) :
    ∃ c more, cs = c :: more ∧ Opens c := by
  cases fuel with
  | zero =>
    rw [atom?] at h
    cases h
  | succ fuel =>
    rcases bracket_or_token depth cs with htoken | ⟨depth, rest, -, rfl | rfl | rfl⟩
    · rw [atom?_simple fuel depth cs htoken] at h
      obtain ⟨⟨first, more⟩, hfirst, -⟩ := Option.bind_eq_some_iff.1 h
      obtain ⟨c, more, rfl, hc⟩ := exists_token_of_simple hfirst
      exact ⟨c, more, rfl, opens_of_not_nonTokens hc⟩
    all_goals exact ⟨_, rest, rfl, by decide⟩

/-- A part begins with a character that opens one. -/
theorem exists_opens_of_sum {fuel depth : Nat} {cs r : List Char} {part : Part} (h : sum? fuel depth cs = some (part, r)) :
    ∃ c more, cs = c :: more ∧ Opens c := by
  cases fuel with
  | zero =>
    rw [sum?] at h
    cases h
  | succ fuel =>
    rw [sum?_succ] at h
    obtain ⟨⟨left, rest⟩, hleft, -⟩ := Option.bind_eq_some_iff.1 h
    unfold signed? at hleft
    split at hleft
    · exact ⟨_, _, rfl, by decide⟩
    · exact ⟨_, _, rfl, by decide⟩
    · exact exists_opens_of_atom hleft

/-! ## Expressions -/

/-- A line, and with it an expression, ends with the text, with a comment or with a line end. -/
def EndsLine (cs : List Char) : Prop := ∀ c ∈ (blanks cs).head?, c = '#' ∨ isLineEnd c = true

/-- What stands behind an item of a tuple without brackets: a comma and more items, or nothing of it. -/
def openTail? (fuel : Nat) (acc : List Value) (cs : List Char) : Option (List Value × List Char) :=
  match blanks cs with
  | ',' :: rest => openTuple? fuel acc rest
  | _ => some (acc.reverse, cs)

theorem openTuple?_ends {cs : List Char} (h : EndsLine cs) (fuel : Nat) (acc : List Value) :
    openTuple? (fuel + 1) acc cs = some (acc.reverse, cs) := by
  rw [openTuple?]
  split
  · rename_i c more hblanks
    have hc := h c (by rw [hblanks]; rfl)
    rw [if_pos (by rcases hc with rfl | hc <;> simp_all)]
  · rfl

theorem openTuple?_item {cs : List Char} (h : ¬EndsLine cs) (fuel : Nat) (acc : List Value) :
    openTuple? (fuel + 1) acc cs = (sum? (3 * cs.length + 3) maxDepth (blanks cs)).bind fun x => x.1.value?.bind fun v =>
      openTail? fuel (v :: acc) x.2 := by
  rw [openTuple?]
  split
  · rename_i c more hblanks
    have hc : ¬((c == '#' || isLineEnd c) = true) := fun hc => h fun d hd => by
      rw [hblanks] at hd
      cases hd
      simpa using hc
    rw [if_neg hc, hblanks]
    rfl
  · rename_i hblanks
    exact absurd (fun c hc => by rw [hblanks] at hc; cases hc) h

/-- What stands behind the first item of an expression: a comma makes a tuple of it. -/
def itemTail? (fuel : Nat) (v : Value) (cs : List Char) : Option (Value × List Char) :=
  match blanks cs with
  | ',' :: rest => (openTuple? fuel [v] rest).map fun y => (.tuple y.1, y.2)
  | _ => some (v, cs)

theorem itemTail?_of_ne {fuel : Nat} {v : Value} {cs : List Char} (h : ∀ rest, blanks cs ≠ ',' :: rest) :
    itemTail? fuel v cs = some (v, cs) := by
  unfold itemTail?
  split
  · exact absurd ‹_› (h _)
  · rfl

theorem itemTail?_comma {fuel : Nat} {v : Value} {cs rest : List Char} (h : blanks cs = ',' :: rest) :
    itemTail? fuel v cs = (openTuple? fuel [v] rest).map fun y => (.tuple y.1, y.2) := by
  unfold itemTail?
  rw [h]
  rfl

theorem expression?_eq (cs : List Char) : expression? cs =
    (sum? (3 * cs.length + 3) maxDepth cs).bind fun x => x.1.value?.bind fun v => itemTail? (cs.length + 1) v x.2 := by
  unfold expression?
  refine congrArg (Option.bind (sum? _ maxDepth cs)) (funext fun ⟨first, rest⟩ => ?_)
  refine congrArg (Option.bind first.value?) (funext fun v => ?_)
  by_cases hcomma : ∃ more, blanks rest = ',' :: more
  · obtain ⟨more, hmore⟩ := hcomma
    rw [itemTail?_comma hmore, hmore]
    exact Option.map_eq_bind.symm
  · have hne : ∀ more, blanks rest ≠ ',' :: more := fun more h => hcomma ⟨more, h⟩
    rw [itemTail?_of_ne hne]
    split
    · exact absurd ‹_› (hne _)
    · rfl

theorem openTail?_of_ne {fuel : Nat} {acc : List Value} {cs : List Char} (h : ∀ rest, blanks cs ≠ ',' :: rest) :
    openTail? fuel acc cs = some (acc.reverse, cs) := by
  unfold openTail?
  split
  · exact absurd ‹_› (h _)
  · rfl

theorem openTail?_comma {fuel : Nat} {acc : List Value} {cs rest : List Char} (h : blanks cs = ',' :: rest) :
    openTail? fuel acc cs = openTuple? fuel acc rest := by
  unfold openTail?
  rw [h]
  rfl

theorem suffix_openTail {fuel : Nat} {acc vs : List Value} {cs r : List Char}
    (htuple : ∀ {acc vs : List Value} {cs r : List Char}, openTuple? fuel acc cs = some (vs, r) → r <:+ cs)
    (h : openTail? fuel acc cs = some (vs, r)) : r <:+ cs := by
  by_cases hcomma : ∃ rest, blanks cs = ',' :: rest
  · obtain ⟨rest, hrest⟩ := hcomma
    rw [openTail?_comma hrest] at h
    exact (htuple h).trans ((List.suffix_cons ',' rest).trans (hrest ▸ suffix_blanks cs))
  · rw [openTail?_of_ne fun rest heq => hcomma ⟨rest, heq⟩] at h
    cases h
    exact List.suffix_rfl

theorem suffix_openTuple {fuel : Nat} {acc vs : List Value} {cs r : List Char} (h : openTuple? fuel acc cs = some (vs, r)) :
    r <:+ cs := by
  induction fuel generalizing acc vs cs r with
  | zero => cases h
  | succ fuel ih =>
    by_cases hends : EndsLine cs
    · rw [openTuple?_ends hends] at h
      cases h
      exact List.suffix_rfl
    · rw [openTuple?_item hends] at h
      obtain ⟨⟨part, rest⟩, hpart, h⟩ := Option.bind_eq_some_iff.1 h
      obtain ⟨v, -, h⟩ := Option.bind_eq_some_iff.1 h
      exact ((suffix_openTail ih h).trans ((shrinks _).sum hpart).suffix).trans (suffix_blanks cs)

theorem suffix_itemTail {fuel : Nat} {v w : Value} {cs r : List Char} (h : itemTail? fuel v cs = some (w, r)) : r <:+ cs := by
  by_cases hcomma : ∃ rest, blanks cs = ',' :: rest
  · obtain ⟨rest, hrest⟩ := hcomma
    rw [itemTail?_comma hrest] at h
    obtain ⟨⟨vs, r⟩, hvs, heq⟩ := Option.map_eq_some_iff.1 h
    cases heq
    exact (suffix_openTuple hvs).trans ((List.suffix_cons ',' rest).trans (hrest ▸ suffix_blanks cs))
  · rw [itemTail?_of_ne fun rest heq => hcomma ⟨rest, heq⟩] at h
    cases h
    exact List.suffix_rfl

theorem leaves_expression {v : Value} {cs r : List Char} (h : expression? cs = some (v, r)) : Leaves cs r := by
  rw [expression?_eq] at h
  obtain ⟨⟨first, rest⟩, hfirst, h⟩ := Option.bind_eq_some_iff.1 h
  obtain ⟨u, -, h⟩ := Option.bind_eq_some_iff.1 h
  exact ((shrinks _).sum hfirst).of_suffix (suffix_itemTail h)

end Amalgam.Literal
