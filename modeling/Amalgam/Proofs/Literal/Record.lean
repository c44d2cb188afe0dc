import Amalgam.Blueprint.Fields
import Amalgam.Proofs.Literal.Quoted

/-!
# The record of a composite is read back

Quoted texts, lists and tables are read as the values they were written for (`Reads`), whatever closes them. So the text
of a composite's record is a literal (`read?_metadataText`), and it is recognised as a record.
-/

namespace Amalgam.Literal

open Text.Quoted (quote)

/-- What the text of a value may begin with: no blank, no comment, and no bracket that closes. -/
def Opens (c : Char) : Prop := c ∉ [' ', '\t', '\x0c', '\\', '#', '\n', '\r', ')', ']', '}']

instance : DecidablePred Opens := fun c => inferInstanceAs (Decidable (c ∉ _))

theorem Opens.trivia_eq {c : Char} (h : Opens c) (inside : Bool) (cs : List Char) : trivia inside (c :: cs) = c :: cs := by
  simp only [Opens, List.mem_cons, List.not_mem_nil, or_false, not_or] at h
  obtain ⟨hblank, htab, hfeed, hslash, hcomment, hline, hreturn, -⟩ := h
  have hgap : isGap c = false := by simp [isGap, hblank, htab, hfeed]
  have hend : isLineEnd c = false := by simp [isLineEnd, hline, hreturn]
  cases inside with
  | true =>
    show gaps false (c :: cs) = c :: cs
    rw [gaps, hgap, hend]
    · rfl
    · exact fun _ h _ => hslash h
    · exact fun _ h _ => hslash h
    · exact fun _ h _ => hslash h
    · exact hcomment
  | false =>
    show blanks (c :: cs) = c :: cs
    rw [blanks, hgap]
    · rfl
    · exact fun _ _ h _ => hslash h
    · exact fun _ _ h _ => hslash h
    · exact fun _ _ h _ => hslash h

theorem Opens.gaps_eq {c : Char} (h : Opens c) (cs : List Char) : gaps false (c :: cs) = c :: cs := h.trivia_eq true cs

theorem Opens.front_eq {c : Char} (h : Opens c) {text : String} {cs : List Char} (htext : text.toList = c :: cs) :
    front text = c :: cs := by
  simp only [Opens, List.mem_cons, List.not_mem_nil, or_false, not_or] at h
  unfold front
  rw [htext, List.dropWhile_cons_of_neg (by simp [h.1, h.2.1])]

/-- It is the first token of a text. -/
theorem Opens.firstToken?_eq {c : Char} (h : Opens c) (fuel : Nat) (cs : List Char) :
    firstToken? (fuel + 1) (c :: cs) = some (c :: cs) := by
  simp only [Opens, List.mem_cons, List.not_mem_nil, or_false, not_or] at h
  obtain ⟨hblank, htab, hfeed, hslash, hcomment, hline, hreturn, -⟩ := h
  have hindent : indentation 0 0 (c :: cs) = (0, c :: cs) := by
    rw [indentation]
    · rfl
    · exact fun _ _ heq => hslash (List.cons.inj heq).1
    · exact fun _ _ heq => hslash (List.cons.inj heq).1
    · exact fun _ _ heq => hslash (List.cons.inj heq).1
    · exact fun _ heq => hblank (List.cons.inj heq).1
    · exact fun _ heq => htab (List.cons.inj heq).1
    · exact fun _ heq => hfeed (List.cons.inj heq).1
  rw [firstToken?, hindent]
  show (if c == '#' then _ else if isLineEnd c then _ else some (c :: cs)) = _
  rw [if_neg (by simpa using hcomment), if_neg (by simp [isLineEnd, hline, hreturn])]

/-- What closes a value: the end of the text, a comma, a colon, or a bracket. -/
def Ends (rest : List Char) : Prop := ∀ c ∈ rest.head?, c ∈ [',', ':', ')', ']', '}']

/-- What the texts of values begin with. -/
def openers : List Char := ['\'', '"', '[', '{']

section Ends

variable {rest : List Char} (h : Ends rest)

include h

theorem Ends.apart : Apart rest := by
  rintro q hq hhead
  have := h q hhead
  rcases hq with rfl | rfl <;> exact absurd this (by decide)

theorem Ends.trivia_eq (inside : Bool) : trivia inside rest = rest := by
  cases rest with
  | nil => cases inside <;> rfl
  | cons c rest =>
    have hc := h c rfl
    simp only [List.mem_cons, List.not_mem_nil, or_false] at hc
    rcases hc with rfl | rfl | rfl | rfl | rfl <;> cases inside <;> rfl

theorem Ends.gaps_eq : gaps false rest = rest := h.trivia_eq true

theorem Ends.startsQuoted_eq : startsQuoted rest = false := by
  cases rest with
  | nil => rfl
  | cons c rest =>
    have hc := h c rfl
    simp only [List.mem_cons, List.not_mem_nil, or_false] at hc
    rcases rest with _ | ⟨a, _ | ⟨b, more⟩⟩ <;> rcases hc with rfl | rfl | rfl | rfl | rfl <;> rfl

end Ends

theorem ends_cons {c : Char} (h : c ∈ [',', ':', ')', ']', '}']) (rest : List Char) : Ends (c :: rest) := by
  intro d hd
  cases hd
  exact h

/-- A text is read as a value by the whole of it. `nesting` is how deep brackets nest in it. -/
structure Reads (nesting : Nat) (text : List Char) (v : Value) : Prop where
  opens : ∃ c ∈ openers, ∃ more, text = c :: more
  plain : ∀ z ∈ unwritten, z ∉ text
  sum : ∀ {fuel depth : Nat} {rest : List Char}, 3 * text.length ≤ fuel → nesting ≤ depth → Ends rest →
    sum? fuel depth (text ++ rest) = some (.datum v, rest)

theorem opens_opener {c : Char} (h : c ∈ openers) : Opens c := by
  simp only [openers, List.mem_cons, List.not_mem_nil, or_false] at h
  rcases h with rfl | rfl | rfl | rfl <;> decide

section Reads

variable {nesting : Nat} {text : List Char} {v : Value} (h : Reads nesting text v)

include h

theorem Reads.gaps_eq (rest : List Char) : gaps false (text ++ rest) = text ++ rest := by
  obtain ⟨c, hc, more, rfl⟩ := h.opens
  exact (opens_opener hc).gaps_eq _

theorem Reads.gaps_blank (rest : List Char) : gaps false (' ' :: (text ++ rest)) = text ++ rest := h.gaps_eq rest

theorem Reads.append_ne_brace (rest more : List Char) : text ++ rest ≠ '}' :: more := by
  obtain ⟨c, hc, cs, rfl⟩ := h.opens
  intro heq
  rw [(List.cons.inj heq).1] at hc
  exact absurd hc (by decide)

end Reads

/-! ## Single parts -/

theorem sum?_of_atom? {fuel depth : Nat} {c : Char} {cs rest : List Char} {v : Value} (hc : c ∈ openers) (hrest : Ends rest)
    (h : atom? fuel depth (c :: cs) = some (.datum v, rest)) : sum? (fuel + 1) depth (c :: cs) = some (.datum v, rest) := by
  have hsigns : c ≠ '-' ∧ c ≠ '+' := by
    simp only [openers, List.mem_cons, List.not_mem_nil, or_false] at hc
    rcases hc with rfl | rfl | rfl | rfl <;> decide
  rw [sum?, h]
  · simp only [Option.bind_eq_bind, Option.bind_some, hrest.trivia_eq]
    split
    · exact absurd (hrest '+' rfl) (by decide)
    · exact absurd (hrest '-' rfl) (by decide)
    · rfl
  · rintro _ heq
    exact hsigns.1 (List.cons.inj heq).1
  · rintro _ heq
    exact hsigns.2 (List.cons.inj heq).1

theorem startsQuoted_quote {q : Char} (hq : IsQuote q) (c : Char) (cs : List Char) : startsQuoted (q :: c :: cs) = true := by
  rcases hq with rfl | rfl <;> cases cs <;> rfl

theorem simple?_quoted {cs rest : List Char} {v : Value} (inside : Bool) (hstarts : startsQuoted cs = true) (hrest : Ends rest)
    (h : quoted? cs = some (v, rest)) : simple? inside cs = some (.datum v, rest) := by
  have hmore : moreQuoted? inside (rest.length + 1) v rest = some (v, rest) := by
    rw [moreQuoted?, hrest.trivia_eq, hrest.startsQuoted_eq]
    rfl
  unfold simple?
  split
  · cases hstarts
  · rw [if_pos hstarts, h]
    show (moreQuoted? inside (rest.length + 1) v rest).bind _ = _
    rw [hmore]
    rfl

theorem atom?_quoted {q c : Char} {cs rest : List Char} {v : Value} (fuel depth : Nat) (hq : IsQuote q)
    (hrest : Ends rest) (h : quoted? (q :: c :: cs) = some (v, rest)) :
    atom? (fuel + 1) depth (q :: c :: cs) = some (.datum v, rest) := by
  rw [atom?, simple?_quoted _ (startsQuoted_quote hq c cs) hrest h]
  · rfl
  all_goals
    rintro _ _ heq
    rw [(List.cons.inj heq).1] at hq
    rcases hq with hq | hq <;> exact absurd hq (by decide)

theorem atom?_list (fuel depth : Nat) (cs : List Char) :
    atom? (fuel + 1) (depth + 1) ('[' :: cs) =
      (items? fuel depth ']' [] (gaps false cs)).map fun r => (.datum (.list r.1), r.2) := by
  rw [atom?]
  cases items? fuel depth ']' [] (gaps false cs) <;> rfl

theorem not_mem_quote {z : Char} (hz : z ∈ unwritten) (s : String) : z ∉ (quote s).toList := by
  have hq := isQuote_quoteFor s.toList
  rw [quote_toList]
  generalize Text.Quoted.quoteFor s.toList = q at hq
  have hne : z ≠ q := by
    rintro rfl
    rcases hq with rfl | rfl <;> exact absurd hz (by decide)
  intro h
  rcases List.mem_cons.1 h with h | h
  · exact hne h
  rcases List.mem_append.1 h with h | h
  · obtain ⟨c, -, hc⟩ := List.mem_flatMap.1 h
    exact (escapeChar_written hq c).apart hq hz hc
  · exact hne (List.mem_singleton.1 h)

theorem reads_quote (s : String) : Reads 0 (quote s).toList (.str s) := by
  have hq := isQuote_quoteFor s.toList
  have hopener : Text.Quoted.quoteFor s.toList ∈ openers := by rcases hq with h | h <;> rw [h] <;> decide
  refine ⟨⟨_, hopener, _, quote_toList s⟩, fun z hz => not_mem_quote hz s, ?_⟩
  intro fuel depth rest hfuel _ hrest
  have hquoted := quoted?_quote s hrest.apart
  rw [quote_toList, List.cons_append, List.append_assoc, List.singleton_append] at hquoted ⊢
  rw [quote_toList, List.length_cons] at hfuel
  obtain ⟨fuel, rfl⟩ : ∃ k, fuel = k + 2 := ⟨fuel - 2, by omega⟩
  refine sum?_of_atom? hopener hrest ?_
  obtain ⟨c, cs, heq⟩ := List.exists_cons_of_ne_nil
    (show s.toList.flatMap (Text.Quoted.escapeChar (Text.Quoted.quoteFor s.toList)) ++
      Text.Quoted.quoteFor s.toList :: rest ≠ [] by simp)
  rw [heq] at hquoted ⊢
  exact atom?_quoted fuel depth hq hrest hquoted

/-! ## Lists -/

/-- Texts with a comma and a blank between them. -/
def commas (ts : List (List Char)) : List Char := [',', ' '].intercalate ts

theorem commas_cons (t : List Char) (ts : List (List Char)) :
    commas (t :: ts) = t ++ ts.flatMap fun u => ',' :: ' ' :: u := by
  induction ts generalizing t with
  | nil => simp [commas]
  | cons u ts ih =>
    show [',', ' '].intercalate (t :: u :: ts) = _
    rw [List.intercalate_cons_cons, List.flatMap_cons]
    show t ++ [',', ' '] ++ commas (u :: ts) = _
    rw [ih, List.append_assoc]
    rfl

theorem mem_commas {ts : List (List Char)} {c : Char} (h : c ∈ commas ts) : c = ',' ∨ c = ' ' ∨ ∃ t ∈ ts, c ∈ t := by
  cases ts with
  | nil => exact absurd h List.not_mem_nil
  | cons t ts =>
    rw [commas_cons] at h
    rcases List.mem_append.1 h with h | h
    · exact Or.inr (Or.inr ⟨t, List.mem_cons_self, h⟩)
    obtain ⟨u, hu, hc⟩ := List.mem_flatMap.1 h
    rcases List.mem_cons.1 hc with hc | hc
    · exact Or.inl hc
    rcases List.mem_cons.1 hc with hc | hc
    · exact Or.inr (Or.inl hc)
    · exact Or.inr (Or.inr ⟨u, List.mem_cons_of_mem _ hu, hc⟩)

/-- A text between brackets is written without what its parts are written without. -/
theorem not_mem_bracketed {a b z : Char} {ts : List (List Char)} (hz : z ∉ [a, b, ',', ' ']) (h : ∀ t ∈ ts, z ∉ t) :
    z ∉ a :: (commas ts ++ [b]) := by
  simp only [List.mem_cons, List.not_mem_nil, or_false, not_or] at hz
  intro hmem
  rcases List.mem_cons.1 hmem with hmem | hmem
  · exact hz.1 hmem
  rcases List.mem_append.1 hmem with hmem | hmem
  · rcases mem_commas hmem with hc | hc | ⟨t, ht, hc⟩
    · exact hz.2.2.1 hc
    · exact hz.2.2.2 hc
    · exact h t ht hc
  · exact hz.2.1 (List.mem_singleton.1 hmem)

/-- No mark of a list or a table is among the characters that no text is written with. -/
theorem not_mem_marks : ∀ z ∈ unwritten, z ∉ ['[', ']', ',', ' '] ∧ z ∉ ['{', '}', ',', ' '] ∧ z ∉ [':', ' '] := by decide

section Items

variable {nesting : Nat} {text : Value → List Char} {close : Char} (hclose : close = ']' ∨ close = '}')

include hclose

theorem Reads.head_ne_close {t : List Char} {v : Value} (h : Reads nesting t v) :
    ∃ c cs, t = c :: cs ∧ (c == close) = false := by
  obtain ⟨c, hc, cs, rfl⟩ := h.opens
  refine ⟨c, cs, rfl, beq_eq_false_iff_ne.2 ?_⟩
  rintro rfl
  rcases hclose with rfl | rfl <;> exact absurd hc (by decide)

theorem items?_item_comma {t : List Char} {v : Value} (h : Reads nesting t v) {fuel depth : Nat} {acc : List Value}
    {rest : List Char} (hfuel : 3 * t.length ≤ fuel) (hdepth : nesting ≤ depth) :
    items? (fuel + 1) depth close acc (t ++ ',' :: rest) = items? fuel depth close (v :: acc) (gaps false rest) := by
  have hsum := h.sum hfuel hdepth (ends_cons (c := ',') (by decide) rest)
  obtain ⟨c, cs, rfl, hc⟩ := h.head_ne_close hclose
  rw [List.cons_append] at hsum ⊢
  rw [items?, hc, if_neg (by decide), hsum]
  rfl

theorem items?_item_close {t : List Char} {v : Value} (h : Reads nesting t v) {fuel depth : Nat} {acc : List Value}
    {rest : List Char} (hfuel : 3 * t.length ≤ fuel) (hdepth : nesting ≤ depth) :
    items? (fuel + 1) depth close acc (t ++ close :: rest) = some ((v :: acc).reverse, rest) := by
  have hsum := h.sum hfuel hdepth (ends_cons (c := close) (by rcases hclose with rfl | rfl <;> decide) rest)
  obtain ⟨c, cs, rfl, hc⟩ := h.head_ne_close hclose
  rw [List.cons_append] at hsum ⊢
  rw [items?, hc, if_neg (by decide), hsum]
  rcases hclose with rfl | rfl <;> rfl

/-- The items of a list are read one after another; each takes what its text is worth, and the comma is worth one. -/
theorem items?_commas {vs : List Value} (h : ∀ v ∈ vs, Reads nesting (text v) v) {fuel depth : Nat} {acc : List Value}
    {rest : List Char} (hfuel : 3 * (commas (vs.map text)).length < fuel) (hdepth : nesting ≤ depth) :
    items? fuel depth close acc (commas (vs.map text) ++ close :: rest) = some (acc.reverse ++ vs, rest) := by
  obtain ⟨fuel, rfl⟩ : ∃ k, fuel = k + 1 := ⟨fuel - 1, by omega⟩
  cases vs with
  | nil =>
    show items? (fuel + 1) depth close acc (close :: rest) = _
    rw [items?, if_pos (beq_self_eq_true close), List.append_nil]
  | cons v vs =>
    induction vs generalizing v acc fuel with
    | nil =>
      have hv := h v List.mem_cons_self
      rw [List.map_cons, List.map_nil, commas_cons, List.flatMap_nil, List.append_nil] at hfuel ⊢
      rw [items?_item_close hclose hv (by omega) hdepth, List.reverse_cons]
    | cons w vs ih =>
      have hv := h v List.mem_cons_self
      have hw := h w (List.mem_cons_of_mem _ List.mem_cons_self)
      have hrest : commas ((v :: w :: vs).map text) ++ close :: rest =
          text v ++ ',' :: ' ' :: (commas ((w :: vs).map text) ++ close :: rest) := by
        simp [commas_cons]
      have hlength : (commas ((v :: w :: vs).map text)).length =
          (text v).length + 2 + (commas ((w :: vs).map text)).length := by
        simp [commas_cons]
        omega
      rw [hlength] at hfuel
      obtain ⟨fuel, rfl⟩ : ∃ k, fuel = k + 1 := ⟨fuel - 1, by omega⟩
      rw [hrest, items?_item_comma hclose hv (by omega) hdepth]
      have hgaps : gaps false (' ' :: (commas ((w :: vs).map text) ++ close :: rest)) =
          commas ((w :: vs).map text) ++ close :: rest := by
        rw [List.map_cons, commas_cons, List.append_assoc]
        exact hw.gaps_blank _
      rw [hgaps, ih fuel w (fun x hx => h x (List.mem_cons_of_mem _ hx)) (by omega)]
      simp

end Items

theorem reads_list {nesting : Nat} {text : Value → List Char} {vs : List Value}
    (h : ∀ v ∈ vs, Reads nesting (text v) v) : Reads (nesting + 1) ('[' :: (commas (vs.map text) ++ [']'])) (.list vs) := by
  refine ⟨⟨'[', by decide, _, rfl⟩, fun z hz => not_mem_bracketed (not_mem_marks z hz).1 ?_, ?_⟩
  · intro t ht
    obtain ⟨v, hv, rfl⟩ := List.mem_map.1 ht
    exact (h v hv).plain z hz
  intro fuel depth rest hfuel hdepth hrest
  rw [List.length_cons, List.length_append, List.length_singleton] at hfuel
  obtain ⟨fuel, rfl⟩ : ∃ k, fuel = k + 2 := ⟨fuel - 2, by omega⟩
  obtain ⟨depth, rfl⟩ : ∃ k, depth = k + 1 := ⟨depth - 1, by omega⟩
  rw [List.cons_append, List.append_assoc, List.singleton_append]
  refine sum?_of_atom? (by decide) hrest ?_
  have hgaps : gaps false (commas (vs.map text) ++ ']' :: rest) = commas (vs.map text) ++ ']' :: rest := by
    cases vs with
    | nil => rfl
    | cons v vs =>
      rw [List.map_cons, commas_cons, List.append_assoc]
      exact (h v List.mem_cons_self).gaps_eq _
  rw [atom?_list, hgaps, items?_commas (Or.inl rfl) h (by omega) (by omega)]
  rfl

/-! ## Tables -/

/-- The text of an entry. -/
def entryText (text : Value → List Char) (e : Value × Value) : List Char := text e.1 ++ ':' :: ' ' :: text e.2

section Entries

variable {nesting : Nat} {text : Value → List Char} {k v : Value} (hk : Reads nesting (text k) k)
  (hv : Reads nesting (text v) v) {fuel depth : Nat} {rest : List Char} (hfuel : 3 * (text k).length ≤ fuel)
  (hfuel' : 3 * (text v).length ≤ fuel) (hdepth : nesting ≤ depth) (hrest : Ends rest)

include hk hv hfuel hfuel' hdepth hrest

theorem entries?_entry (acc : List (Value × Value)) :
    entries? (fuel + 1) depth acc (',' :: ' ' :: (entryText text (k, v) ++ rest)) =
      entries? fuel depth ((k, v) :: acc) rest := by
  have hkey := hk.sum hfuel hdepth (ends_cons (c := ':') (by decide) (' ' :: (text v ++ rest)))
  have hvalue := hv.sum hfuel' hdepth hrest
  have hblank := hk.gaps_blank (':' :: ' ' :: (text v ++ rest))
  rw [entryText, List.append_assoc, List.cons_append, List.cons_append, entries?, hblank]
  split
  · rename_i heq
    exact absurd heq (hk.append_ne_brace _ _)
  rw [hkey]
  show ((sum? fuel depth (gaps false (' ' :: (text v ++ rest)))).bind _) = _
  rw [hv.gaps_blank, hvalue]
  show entries? fuel depth ((k, v) :: acc) (gaps false rest) = _
  rw [hrest.gaps_eq]

theorem atom?_table :
    atom? (fuel + 1) (depth + 1) ('{' :: (entryText text (k, v) ++ rest)) =
      (entries? fuel depth [(k, v)] rest).bind fun r =>
        if r.1.all fun e => e.1.isHashable then some (.datum (Value.dictOf r.1), r.2) else none := by
  have hkey := hk.sum hfuel hdepth (ends_cons (c := ':') (by decide) (' ' :: (text v ++ rest)))
  have hvalue := hv.sum hfuel' hdepth hrest
  have hgaps := hk.gaps_eq (':' :: ' ' :: (text v ++ rest))
  rw [entryText, List.append_assoc, List.cons_append, List.cons_append, atom?, hgaps]
  split
  · rename_i heq
    exact absurd heq (hk.append_ne_brace _ _)
  rw [hkey]
  show ((sum? fuel depth (gaps false (' ' :: (text v ++ rest)))).bind _) = _
  rw [hv.gaps_blank, hvalue]
  show (entries? fuel depth [(k, v)] (gaps false rest)).bind _ = _
  rw [hrest.gaps_eq]
  cases entries? fuel depth [(k, v)] rest with
  | none => rfl
  | some r =>
    obtain ⟨es, rest⟩ := r
    simp only [Option.bind_some]
    split <;> rfl

end Entries

/-- What stands for the entries of a table behind the first one. -/
def moreEntries (text : Value → List Char) (es : List (Value × Value)) : List Char :=
  es.flatMap fun e => ',' :: ' ' :: entryText text e

theorem length_entryText (text : Value → List Char) (e : Value × Value) :
    (entryText text e).length = (text e.1).length + 2 + (text e.2).length := by
  simp [entryText]
  omega

theorem length_moreEntries_cons (text : Value → List Char) (e : Value × Value) (es : List (Value × Value)) :
    (moreEntries text (e :: es)).length = (entryText text e).length + 2 + (moreEntries text es).length := by
  simp [moreEntries]
  omega

theorem ends_moreEntries (text : Value → List Char) (es : List (Value × Value)) (rest : List Char) :
    Ends (moreEntries text es ++ '}' :: rest) := by
  cases es with
  | nil => exact ends_cons (by decide) _
  | cons e es => exact ends_cons (by decide) _

section Tables

variable {nesting : Nat} {text : Value → List Char}

theorem entries?_moreEntries {es acc : List (Value × Value)}
    (h : ∀ e ∈ es, Reads nesting (text e.1) e.1 ∧ Reads nesting (text e.2) e.2) {fuel depth : Nat} {rest : List Char}
    (hfuel : 3 * (moreEntries text es).length < fuel) (hdepth : nesting ≤ depth) :
    entries? fuel depth acc (moreEntries text es ++ '}' :: rest) = some (acc.reverse ++ es, rest) := by
  induction es generalizing acc fuel with
  | nil =>
    obtain ⟨fuel, rfl⟩ : ∃ k, fuel = k + 1 := ⟨fuel - 1, by omega⟩
    show entries? (fuel + 1) depth acc ('}' :: rest) = _
    rw [entries?, List.append_nil]
  | cons e es ih =>
    obtain ⟨hk, hv⟩ := h e List.mem_cons_self
    rw [length_moreEntries_cons, length_entryText] at hfuel
    obtain ⟨fuel, rfl⟩ : ∃ k, fuel = k + 1 := ⟨fuel - 1, by omega⟩
    show entries? (fuel + 1) depth acc (',' :: ' ' :: (entryText text (e.1, e.2) ++ moreEntries text es) ++ _) = _
    rw [List.cons_append, List.cons_append, List.append_assoc,
      entries?_entry hk hv (by omega) (by omega) hdepth (ends_moreEntries text es rest),
      ih (fun d hd => h d (List.mem_cons_of_mem _ hd)) (by omega)]
    simp

/-- A table is read as that of its entries, of which the last one of a key counts. -/
theorem reads_table {e : Value × Value} {es : List (Value × Value)}
    (h : ∀ d ∈ e :: es, Reads nesting (text d.1) d.1 ∧ Reads nesting (text d.2) d.2)
    (hkeys : ∀ d ∈ e :: es, d.1.isHashable = true) :
    Reads (nesting + 1) ('{' :: (commas ((e :: es).map (entryText text)) ++ ['}'])) (Value.dictOf (e :: es)) := by
  refine ⟨⟨'{', by decide, _, rfl⟩, fun z hz => not_mem_bracketed (not_mem_marks z hz).2.1 ?_, ?_⟩
  · intro t ht
    obtain ⟨d, hd, rfl⟩ := List.mem_map.1 ht
    obtain ⟨hk, hv⟩ := h d hd
    have hmarks := (not_mem_marks z hz).2.2
    simp only [List.mem_cons, List.not_mem_nil, or_false, not_or] at hmarks
    simp [entryText, hk.plain z hz, hv.plain z hz, hmarks]
  intro fuel depth rest hfuel hdepth hrest
  obtain ⟨hk, hv⟩ := h e List.mem_cons_self
  have htext : commas ((e :: es).map (entryText text)) = entryText text e ++ moreEntries text es := by
    rw [List.map_cons, commas_cons, List.flatMap_map]
    rfl
  rw [htext] at hfuel ⊢
  rw [List.length_cons, List.length_append, List.length_append, length_entryText, List.length_singleton] at hfuel
  obtain ⟨fuel, rfl⟩ : ∃ k, fuel = k + 2 := ⟨fuel - 2, by omega⟩
  obtain ⟨depth, rfl⟩ : ∃ k, depth = k + 1 := ⟨depth - 1, by omega⟩
  rw [List.cons_append, List.append_assoc, List.append_assoc, List.singleton_append]
  refine sum?_of_atom? (by decide) hrest ?_
  rw [atom?_table hk hv (by omega) (by omega) (by omega) (ends_moreEntries text es rest),
    entries?_moreEntries (fun d hd => h d (List.mem_cons_of_mem _ hd)) (by omega) (by omega), Option.bind_some]
  exact if_pos (List.all_eq_true.2 hkeys)

end Tables

/-! ## Whole texts -/

section Whole

variable {nesting : Nat} {text : String} {v : Value} (h : Reads nesting text.toList v) (hdepth : nesting ≤ maxDepth)

include h hdepth

theorem expression?_of_reads : expression? text.toList = some (v, []) := by
  have hnil : Ends [] := by rintro _ ⟨⟩
  have hsum := h.sum (Nat.le_add_right (3 * text.toList.length) 3) hdepth hnil
  rw [List.append_nil] at hsum
  unfold expression?
  rw [hsum]
  rfl

/-- A text that is read as a value by the whole of it is a literal of that value. -/
theorem read?_of_reads : read? text = some v := by
  have hexpression := expression?_of_reads h hdepth
  obtain ⟨c, hc, cs, heq⟩ := h.opens
  have hopens := opens_opener hc
  unfold read?
  rw [if_neg (by simpa using h.plain '\x00' (by decide)), hopens.front_eq heq, hopens.firstToken?_eq]
  show (expression? (c :: cs)).bind _ = _
  rw [← heq, hexpression]
  rfl

end Whole

/-! ## The record -/

theorem Reads.mono {m n : Nat} {text : List Char} {v : Value} (h : Reads m text v) (hmn : m ≤ n) : Reads n text v :=
  ⟨h.opens, h.plain, fun hfuel hdepth hrest => h.sum hfuel (Nat.le_trans hmn hdepth) hrest⟩

/-- The characters a value is written with, none if it cannot be written. -/
def written (v : Value) : List Char := ((v.spell? fun _ => none).getD "").toList

theorem written_str (s : String) : written (.str s) = (quote s).toList := by
  unfold written Value.spell?
  rfl

theorem spellAll?_str (ss : List String) :
    Value.spellAll? (fun _ => none) (ss.map .str) = some (ss.map quote) := by
  induction ss with
  | nil => rfl
  | cons s ss ih =>
    rw [List.map_cons, Value.spellAll?, ih]
    rfl

theorem written_strs (ss : List String) :
    written (.list (ss.map .str)) = '[' :: (commas ((ss.map Value.str).map written) ++ [']']) := by
  have htexts : (ss.map Value.str).map written = (ss.map quote).map String.toList := by
    rw [List.map_map, List.map_map]
    exact List.map_congr_left fun s _ => written_str s
  rw [htexts]
  unfold written Value.spell?
  rw [spellAll?_str]
  simp [commas]

theorem reads_strs (ss : List String) : Reads 1 (written (.list (ss.map .str))) (.list (ss.map .str)) := by
  rw [written_strs]
  refine reads_list fun v hv => ?_
  obtain ⟨s, -, rfl⟩ := List.mem_map.1 hv
  rw [written_str]
  exact reads_quote s

end Amalgam.Literal

namespace Amalgam.Fields

open Literal

theorem toList_metadataText (base : String) (mixins sets : List String) :
    (metadataText base mixins sets).toList =
      '{' :: (commas ([(.str "base", .str base), (.str "mixins", .list (mixins.map .str)),
        (.str "capability_sets", .list (sets.map .str))].map (entryText written)) ++ ['}']) := by
  have hmixins := spellAll?_str mixins
  have hsets := spellAll?_str sets
  simp [metadataText, metadata, Value.spellSafely, Value.spell?, Value.spellEntries?, hmixins, hsets, commas,
    entryText, written]

theorem reads_metadataText (base : String) (mixins sets : List String) :
    Reads 2 (metadataText base mixins sets).toList (metadata base mixins sets) := by
  have hstr : ∀ s, Reads 1 (written (.str s)) (.str s) := by
    intro s
    rw [written_str]
    exact (reads_quote s).mono (by decide)
  rw [toList_metadataText]
  refine reads_table ?_ ?_
  · intro d hd
    simp only [List.mem_cons, List.not_mem_nil, or_false] at hd
    rcases hd with rfl | rfl | rfl
    · exact ⟨hstr _, hstr _⟩
    · exact ⟨hstr _, reads_strs mixins⟩
    · exact ⟨hstr _, reads_strs sets⟩
  · intro d hd
    simp only [List.mem_cons, List.not_mem_nil, or_false] at hd
    rcases hd with rfl | rfl | rfl <;> rfl

/-- The text of a record is a literal of the record. -/
theorem read?_metadataText (base : String) (mixins sets : List String) :
    read? (metadataText base mixins sets) = some (metadata base mixins sets) :=
  read?_of_reads (reads_metadataText base mixins sets) (by decide)

theorem isLiteral_metadataText (base : String) (mixins sets : List String) :
    isLiteral (metadataText base mixins sets) = true := by
  unfold isLiteral
  rw [read?_metadataText]
  rfl

end Amalgam.Fields
