import Amalgam.Proofs.Literal.Meaning
import Mathlib.Data.List.Forall2

/-!
# What is written as a literal is read as what it was written for

Of the texts that values are written with, many are no literals: objects have none, and brackets may nest too deep. Every
written form means its value (`Value.means_of_spell?`), if the world's own objects are written between angle brackets, and the
value is what it seems (`Value.IsSound`). So a written form that is a literal is a literal of that value
(`Literal.read?_of_means`).
-/

namespace Amalgam.Literal

/-! ## Items -/

theorem commas_cons_cons (t u : List Char) (ts : List (List Char)) :
    commas (t :: u :: ts) = t ++ ',' :: ' ' :: commas (u :: ts) := by
  rw [commas_cons, commas_cons]
  rfl

theorem Means.gaps_commas {t : List Char} {v : Value} (ht : Means t v) (ts : List (List Char)) (rest : List Char) :
    gaps false (commas (t :: ts) ++ rest) = commas (t :: ts) ++ rest := by
  rw [commas_cons, List.append_assoc]
  exact ht.gaps_eq _

section Items

variable {fuel depth : Nat} {close : Char} {t : List Char} {v : Value} {acc ws : List Value} {rest more : List Char}

theorem ends_close (hclose : close ∈ [')', ']', '}']) (rest : List Char) : Ends (close :: rest) := by
  refine ends_cons ?_ rest
  simp only [List.mem_cons, List.not_mem_nil, or_false] at hclose ⊢
  exact Or.inr (Or.inr hclose)

/-- Where the bracket is closed at once, there are no more items. -/
theorem items?_closed (h : items? fuel depth close acc (close :: rest) = some (ws, more)) : ws = acc.reverse ∧ more = rest := by
  cases fuel with
  | zero =>
    rw [items?] at h
    cases h
  | succ fuel =>
    rw [items?, if_pos (beq_self_eq_true close)] at h
    cases h
    exact ⟨rfl, rfl⟩

/-- The first item is read, and then what stands behind it. -/
theorem items?_item (hclose : close ∈ [')', ']', '}']) (ht : Means t v) (hrest : Ends rest)
    (h : items? fuel depth close acc (t ++ rest) = some (ws, more)) :
    (∃ fuel' behind, rest = ',' :: behind ∧ items? fuel' depth close (v :: acc) (gaps false behind) = some (ws, more)) ∨
      ∃ behind, rest = close :: behind ∧ ws = (v :: acc).reverse ∧ more = behind := by
  cases fuel with
  | zero =>
    rw [items?] at h
    cases h
  | succ fuel =>
    obtain ⟨c, cs, rfl, hc⟩ := ht.exists_cons hclose
    rw [List.cons_append, items?, if_neg (by simpa using hc)] at h
    obtain ⟨⟨part, behind⟩, hsum, hread⟩ := Option.bind_eq_some_iff.1 h
    obtain ⟨hvalue, rfl⟩ := ht.reads hrest hsum
    obtain ⟨w, hw, hitems⟩ := Option.bind_eq_some_iff.1 hread
    cases hvalue.symm.trans hw
    rw [hrest.gaps_eq] at hitems
    split at hitems
    · exact Or.inl ⟨fuel, _, rfl, hitems⟩
    · split at hitems
      · rename_i hd
        cases hitems
        exact Or.inr ⟨_, congrArg (· :: more) (eq_of_beq hd), rfl, rfl⟩
      · cases hitems
    · cases hitems

/-- The items of a list are read as the values that their texts mean. -/
theorem items?_of_means (hclose : close ∈ [')', ']', '}']) {ts : List (List Char)} {vs : List Value} (ht : Means t v)
    (hts : List.Forall₂ Means ts vs)
    (h : items? fuel depth close acc (commas (t :: ts) ++ close :: rest) = some (ws, more)) :
    ws = acc.reverse ++ v :: vs ∧ more = rest := by
  induction hts generalizing t v acc fuel with
  | nil =>
    have htext : commas [t] = t := by rw [commas_cons, List.flatMap_nil, List.append_nil]
    rw [htext] at h
    obtain ⟨_, behind, heq, -⟩ | ⟨behind, heq, rfl, rfl⟩ := items?_item hclose ht (ends_close hclose rest) h
    · rw [(List.cons.inj heq).1] at hclose
      exact absurd hclose (by decide)
    · cases heq
      exact ⟨by simp, rfl⟩
  | @cons u w ts ws' hu hts ih =>
    rw [commas_cons_cons, List.append_assoc, List.cons_append, List.cons_append] at h
    obtain ⟨fuel', behind, heq, h⟩ | ⟨behind, heq, -⟩ := items?_item hclose ht (ends_cons (by decide) _) h
    · cases heq
      have hgaps : gaps false (' ' :: (commas (u :: ts) ++ close :: rest)) = commas (u :: ts) ++ close :: rest :=
        hu.gaps_commas ts _
      rw [hgaps] at h
      obtain ⟨rfl, rfl⟩ := ih hu h
      exact ⟨by simp, rfl⟩
    · rw [← (List.cons.inj heq).1] at hclose
      exact absurd hclose (by decide)

end Items

/-! ## Brackets -/

section Brackets

variable {fuel depth : Nat} {t : List Char} {v : Value} {rest more : List Char} {part : Part}

theorem simple?_bracket {c : Char} (hc : c ∈ ['(', '[', '{']) (inside : Bool) (cs : List Char) : simple? inside (c :: cs) = none := by
  have hname : Text.isNameStart c = false := by
    simp only [List.mem_cons, List.not_mem_nil, or_false] at hc
    rcases hc with rfl | rfl | rfl <;> decide +kernel
  have hquoted : startsQuoted (c :: cs) = false := by
    simp only [List.mem_cons, List.not_mem_nil, or_false] at hc
    rcases cs with _ | ⟨a, _ | ⟨b, cs⟩⟩ <;> rcases hc with rfl | rfl | rfl <;> rfl
  have hdigit : (c.isDigit || c == '.') = false := by
    simp only [List.mem_cons, List.not_mem_nil, or_false] at hc
    rcases hc with rfl | rfl | rfl <;> rfl
  unfold simple?
  split
  · rename_i heq
    rw [(List.cons.inj heq).1] at hc
    exact absurd hc (by decide)
  · rw [hquoted, if_neg Bool.false_ne_true]
    dsimp only
    rw [hdigit, if_neg Bool.false_ne_true, hname, if_neg Bool.false_ne_true]

/-- Brackets are read one level below. -/
theorem exists_depth {c : Char} {cs : List Char} (hc : c ∈ ['(', '[', '{'])
    (h : atom? (fuel + 1) depth (c :: cs) = some (part, more)) : ∃ depth', depth = depth' + 1 := by
  cases depth with
  | succ depth => exact ⟨depth, rfl⟩
  | zero =>
    rw [atom?, simple?_bracket hc] at h
    · cases h
    all_goals
      rintro _ _ _ hzero
      cases hzero

theorem atom?_paren (ht : Means t v) (hrest : Ends rest)
    (h : atom? (fuel + 1) (depth + 1) ('(' :: (t ++ rest)) = some (part, more)) :
    (∃ behind, rest = ')' :: behind) ∨
      ∃ behind vs, rest = ',' :: behind ∧ items? fuel depth ')' [v] (gaps false behind) = some (vs, more) ∧
        part = .datum (.tuple vs) := by
  rw [atom?, ht.gaps_eq] at h
  split at h
  · rename_i heq
    obtain ⟨c, cs, rfl, hc⟩ := ht.exists_cons (show ')' ∈ _ by decide)
    exact absurd (List.cons.inj heq).1 hc
  obtain ⟨⟨first, behind⟩, hsum, hread⟩ := Option.bind_eq_some_iff.1 h
  obtain ⟨hvalue, rfl⟩ := ht.reads hrest hsum
  dsimp only at hread
  rw [hrest.gaps_eq] at hread
  split at hread
  · exact Or.inl ⟨_, rfl⟩
  · obtain ⟨w, hw, hread⟩ := Option.bind_eq_some_iff.1 hread
    cases hvalue.symm.trans hw
    obtain ⟨⟨vs, after⟩, hitems, hdone⟩ := Option.bind_eq_some_iff.1 hread
    cases hdone
    exact Or.inr ⟨_, vs, rfl, hitems, rfl⟩
  · cases hread

theorem atom?_brace (ht : Means t v) (hrest : Ends rest)
    (h : atom? (fuel + 1) (depth + 1) ('{' :: (t ++ rest)) = some (part, more)) :
    (rest = '}' :: more ∧ part = .datum (.set [v])) ∨
      (∃ behind vs, rest = ',' :: behind ∧ items? fuel depth '}' [v] (gaps false behind) = some (vs, more) ∧
        part = .datum (Value.setOf vs)) ∨
      ∃ behind next after w es, rest = ':' :: behind ∧ sum? fuel depth (gaps false behind) = some (next, after) ∧
        next.value? = some w ∧ entries? fuel depth [(v, w)] (gaps false after) = some (es, more) ∧
        part = .datum (Value.dictOf es) := by
  rw [atom?, ht.gaps_eq] at h
  split at h
  · rename_i heq
    obtain ⟨c, cs, rfl, hc⟩ := ht.exists_cons (show '}' ∈ _ by decide)
    exact absurd (List.cons.inj heq).1 hc
  obtain ⟨⟨first, behind⟩, hsum, hread⟩ := Option.bind_eq_some_iff.1 h
  obtain ⟨hvalue, rfl⟩ := ht.reads hrest hsum
  obtain ⟨w, hw, hclosed⟩ := Option.bind_eq_some_iff.1 hread
  cases hvalue.symm.trans hw
  rw [hrest.gaps_eq] at hclosed
  split at hclosed
  · obtain ⟨⟨next, after⟩, hnext, htable⟩ := Option.bind_eq_some_iff.1 hclosed
    obtain ⟨w, hw, htable⟩ := Option.bind_eq_some_iff.1 htable
    obtain ⟨⟨es, last⟩, hentries, htable⟩ := Option.bind_eq_some_iff.1 htable
    dsimp only at htable
    split at htable
    · cases htable
      exact Or.inr (Or.inr ⟨_, next, after, w, es, rfl, hnext, hw, hentries, rfl⟩)
    · cases htable
  · obtain ⟨⟨vs, after⟩, hitems, hset⟩ := Option.bind_eq_some_iff.1 hclosed
    dsimp only at hset
    split at hset
    · cases hset
      exact Or.inr (Or.inl ⟨_, vs, rfl, hitems, rfl⟩)
    · cases hset
  · split at hclosed
    · cases hclosed
      exact Or.inl ⟨rfl, rfl⟩
    · cases hclosed
  · cases hclosed

end Brackets

section Sequences

variable {t : List Char} {v : Value} {ts : List (List Char)} {vs : List Value}

theorem means_list (h : List.Forall₂ Means ts vs) : Means ('[' :: (commas ts ++ [']'])) (.list vs) := by
  refine means_of_atom (by decide) (by decide) fun {fuel depth rest part more} _ hatom => ?_
  obtain ⟨depth, rfl⟩ := exists_depth (by decide) hatom
  rw [List.append_assoc, List.singleton_append, atom?_list] at hatom
  obtain ⟨⟨ws, behind⟩, hitems, hdone⟩ := Option.map_eq_some_iff.1 hatom
  cases hdone
  cases h with
  | nil =>
    obtain ⟨rfl, rfl⟩ := items?_closed (show items? fuel depth ']' [] (']' :: rest) = some (ws, _) from hitems)
    exact ⟨rfl, rfl⟩
  | cons hu hus =>
    rw [hu.gaps_commas] at hitems
    obtain ⟨rfl, rfl⟩ := items?_of_means (by decide) hu hus hitems
    exact ⟨rfl, rfl⟩

theorem means_noTuple : Means ['(', ')'] (.tuple []) := by
  refine means_of_atom (by decide) (by decide) fun {fuel depth rest part more} _ hatom => ?_
  obtain ⟨depth, rfl⟩ := exists_depth (by decide) hatom
  rw [atom?] at hatom
  cases hatom
  exact ⟨rfl, rfl⟩

/-- A tuple of one item is written with a comma behind it. -/
theorem means_oneTuple (ht : Means t v) : Means ('(' :: (t ++ [',', ')'])) (.tuple [v]) := by
  refine means_of_atom (by decide) (by decide) fun {fuel depth rest part more} _ hatom => ?_
  obtain ⟨depth, rfl⟩ := exists_depth (by decide) hatom
  rw [List.append_assoc] at hatom
  obtain ⟨behind, heq⟩ | ⟨behind, ws, heq, hitems, rfl⟩ := atom?_paren ht (ends_cons (by decide) _) hatom
  · cases heq
  · cases heq
    obtain ⟨rfl, rfl⟩ := items?_closed (show items? fuel depth ')' [v] (')' :: rest) = some (ws, more) from hitems)
    exact ⟨rfl, rfl⟩

/-- What stands behind the first item and a comma is read as the other items. -/
theorem items?_behind {close : Char} (hclose : close ∈ [')', ']', '}']) {u : List Char} {w : Value} (hu : Means u w)
    (h : List.Forall₂ Means ts vs) {fuel depth : Nat} {ws : List Value} {rest more : List Char}
    (hitems : items? fuel depth close [v] (gaps false (' ' :: (commas (u :: ts) ++ close :: rest))) = some (ws, more)) :
    ws = v :: w :: vs ∧ more = rest := by
  have hgaps : gaps false (' ' :: (commas (u :: ts) ++ close :: rest)) = commas (u :: ts) ++ close :: rest :=
    hu.gaps_commas ts _
  rw [hgaps] at hitems
  exact items?_of_means hclose hu h hitems

theorem means_tuple {u : List Char} {w : Value} (ht : Means t v) (hu : Means u w) (h : List.Forall₂ Means ts vs) :
    Means ('(' :: (commas (t :: u :: ts) ++ [')'])) (.tuple (v :: w :: vs)) := by
  refine means_of_atom (by decide) (by decide) fun {fuel depth rest part more} _ hatom => ?_
  obtain ⟨depth, rfl⟩ := exists_depth (by decide) hatom
  rw [commas_cons_cons, List.append_assoc, List.append_assoc] at hatom
  obtain ⟨behind, heq⟩ | ⟨behind, ws, heq, hitems, rfl⟩ := atom?_paren ht (ends_cons (by decide) _) hatom
  · cases heq
  · cases heq
    obtain ⟨rfl, rfl⟩ := items?_behind (show ')' ∈ _ by decide) hu h hitems
    exact ⟨rfl, rfl⟩

/-- A set whose items differ is read as the same. -/
theorem means_set (ht : Means t v) (h : List.Forall₂ Means ts vs) (hset : Value.setOf (v :: vs) = .set (v :: vs)) :
    Means ('{' :: (commas (t :: ts) ++ ['}'])) (.set (v :: vs)) := by
  refine means_of_atom (by decide) (by decide) fun {fuel depth rest part more} _ hatom => ?_
  obtain ⟨depth, rfl⟩ := exists_depth (by decide) hatom
  cases h with
  | nil =>
    rw [commas_cons, List.flatMap_nil, List.append_nil, List.append_assoc] at hatom
    obtain ⟨heq, rfl⟩ | ⟨behind, ws, heq, -⟩ | ⟨behind, _, _, _, _, heq, -⟩ := atom?_brace ht (ends_cons (by decide) _) hatom
    · cases heq
      exact ⟨rfl, rfl⟩
    · cases heq
    · cases heq
  | cons hu hus =>
    rw [commas_cons_cons, List.append_assoc, List.append_assoc] at hatom
    obtain ⟨heq, -⟩ | ⟨behind, ws, heq, hitems, rfl⟩ | ⟨behind, _, _, _, _, heq, -⟩ :=
      atom?_brace ht (ends_cons (by decide) _) hatom
    · cases heq
    · cases heq
      obtain ⟨rfl, rfl⟩ := items?_behind (show '}' ∈ _ by decide) hu hus hitems
      exact ⟨congrArg some hset, rfl⟩
    · cases heq

end Sequences

/-! ## Tables -/

/-- A key and a value with a colon between them. -/
def MeansEntry (t : List Char) (e : Value × Value) : Prop := ∃ a b, t = a ++ ':' :: ' ' :: b ∧ Means a e.1 ∧ Means b e.2

section Tables

variable {t : List Char} {e : Value × Value} {ts : List (List Char)} {es : List (Value × Value)}

/-- What stands behind the first entry: the others, each with a comma in front, and the bracket. -/
theorem ends_others (ts : List (List Char)) (rest : List Char) :
    Ends ((ts.flatMap fun u => ',' :: ' ' :: u) ++ '}' :: rest) := by
  cases ts with
  | nil => exact ends_cons (by decide) _
  | cons t ts => exact ends_cons (by decide) _

theorem entries?_of_means (h : List.Forall₂ MeansEntry ts es) {fuel depth : Nat} {acc fs : List (Value × Value)}
    {rest more : List Char}
    (hentries : entries? fuel depth acc ((ts.flatMap fun u => ',' :: ' ' :: u) ++ '}' :: rest) = some (fs, more)) :
    fs = acc.reverse ++ es ∧ more = rest := by
  induction h generalizing acc fuel with
  | nil =>
    cases fuel with
    | zero =>
      rw [entries?] at hentries
      cases hentries
    | succ fuel =>
      rw [List.flatMap_nil, List.nil_append, entries?] at hentries
      cases hentries
      exact ⟨(List.append_nil _).symm, rfl⟩
  | @cons t e ts es ht _ ih =>
    obtain ⟨a, b, rfl, hkey, hvalue⟩ := ht
    cases fuel with
    | zero =>
      rw [entries?] at hentries
      cases hentries
    | succ fuel =>
      have htext : (((a ++ ':' :: ' ' :: b) :: ts).flatMap fun u => ',' :: ' ' :: u) ++ '}' :: rest =
          ',' :: ' ' :: (a ++ ':' :: ' ' :: (b ++ ((ts.flatMap fun u => ',' :: ' ' :: u) ++ '}' :: rest))) := by
        simp
      have hends := ends_others ts rest
      rw [htext, entries?, hkey.gaps_blank] at hentries
      split at hentries
      · rename_i heq
        obtain ⟨c, cs, rfl, hc⟩ := hkey.exists_cons (show '}' ∈ _ by decide)
        exact absurd (List.cons.inj heq).1 hc
      obtain ⟨⟨key, behind⟩, hsum, hread⟩ := Option.bind_eq_some_iff.1 hentries
      obtain ⟨hkey', rfl⟩ := hkey.reads (ends_cons (by decide) _) hsum
      obtain ⟨k, hk, hread⟩ := Option.bind_eq_some_iff.1 hread
      cases hkey'.symm.trans hk
      rw [(ends_cons (by decide) _ : Ends (':' :: _)).gaps_eq] at hread
      obtain ⟨⟨next, after⟩, hnext, hread⟩ := Option.bind_eq_some_iff.1 hread
      rw [hvalue.gaps_blank] at hnext
      obtain ⟨hvalue', rfl⟩ := hvalue.reads hends hnext
      obtain ⟨x, hx, hread⟩ := Option.bind_eq_some_iff.1 hread
      cases hvalue'.symm.trans hx
      rw [hends.gaps_eq] at hread
      obtain ⟨rfl, rfl⟩ := ih hread
      exact ⟨by simp, rfl⟩

theorem means_noTable : Means ['{', '}'] (.dict []) := by
  refine means_of_atom (by decide) (by decide) fun {fuel depth rest part more} _ hatom => ?_
  obtain ⟨depth, rfl⟩ := exists_depth (by decide) hatom
  rw [atom?] at hatom
  cases hatom
  exact ⟨rfl, rfl⟩

/-- A table whose keys differ is read as the same. -/
theorem means_table (ht : MeansEntry t e) (h : List.Forall₂ MeansEntry ts es) (hdict : Value.dictOf (e :: es) = .dict (e :: es)) :
    Means ('{' :: (commas (t :: ts) ++ ['}'])) (.dict (e :: es)) := by
  obtain ⟨a, b, rfl, hkey, hvalue⟩ := ht
  refine means_of_atom (by decide) (by decide) fun {fuel depth rest part more} _ hatom => ?_
  obtain ⟨depth, rfl⟩ := exists_depth (by decide) hatom
  have htext : commas ((a ++ ':' :: ' ' :: b) :: ts) ++ ['}'] ++ rest =
      a ++ ':' :: ' ' :: (b ++ ((ts.flatMap fun u => ',' :: ' ' :: u) ++ '}' :: rest)) := by
    rw [commas_cons]
    simp
  rw [htext] at hatom
  obtain ⟨heq, -⟩ | ⟨_, _, heq, -⟩ | ⟨behind, next, after, w, fs, heq, hnext, hw, hentries, rfl⟩ :=
    atom?_brace hkey (ends_cons (by decide) _) hatom
  · cases heq
  · cases heq
  · cases heq
    rw [hvalue.gaps_blank] at hnext
    obtain ⟨hvalue', rfl⟩ := hvalue.reads (ends_others ts rest) hnext
    cases hvalue'.symm.trans hw
    rw [(ends_others ts rest).gaps_eq] at hentries
    obtain ⟨rfl, rfl⟩ := entries?_of_means h hentries
    exact ⟨congrArg some hdict, rfl⟩

end Tables

/-! ## Whole texts -/

/-- A text that means a value is read as that, if it is a literal; and it is no tuple without brackets. -/
theorem read?_of_means {text : String} {v u : Value} (h : Means text.toList v) (hread : read? text = some u) :
    u = v ∧ openItems? text = none := by
  obtain ⟨c, cs, htext, hc⟩ := h.opens
  have hfirst : ∀ n, firstToken? (n + 1) (front text) = some (c :: cs) := fun n => by
    rw [hc.front_eq htext, hc.firstToken?_eq]
  have hnil : Ends [] := by rintro _ ⟨⟩
  have hsum : ∀ {fuel part rest}, sum? fuel maxDepth (c :: cs) = some (part, rest) → part.value? = some v ∧ rest = [] := by
    intro fuel part rest hsum
    exact h.reads hnil (by rw [htext, List.append_nil]; exact hsum)
  constructor
  · unfold read? at hread
    split at hread
    · cases hread
    rw [hfirst, Option.bind_eq_bind, Option.bind_some] at hread
    obtain ⟨⟨w, rest⟩, hexpression, htail⟩ := Option.bind_eq_some_iff.1 hread
    obtain ⟨⟨first, behind⟩, hpart, hwhole⟩ := Option.bind_eq_some_iff.1 hexpression
    obtain ⟨hvalue, rfl⟩ := hsum hpart
    obtain ⟨x, hx, hdone⟩ := Option.bind_eq_some_iff.1 hwhole
    cases hvalue.symm.trans hx
    cases hdone
    cases htail
    rfl
  · unfold openItems?
    rw [hfirst, Option.bind_eq_bind, Option.bind_some]
    cases hpart : sum? (3 * (c :: cs).length + 3) maxDepth (c :: cs) with
    | none => rfl
    | some r =>
      obtain ⟨first, behind⟩ := r
      obtain ⟨-, rfl⟩ := hsum hpart
      rfl

end Amalgam.Literal

namespace Amalgam.Value

open Literal

mutual

/-- A value that can be told from its written form: floating numbers are read as themselves, bytes are small, and the items of
sets and the keys of tables differ. -/
def IsSound : Value → Prop
  | float x => Means (Text.Decimal.Style.values.text x).toList (.float x)
  | complex re im => Means (complexText re im).toList (.complex re im)
  | bytes bs => ∀ b ∈ bs, b < 256
  | list vs => AreSound vs
  | tuple vs => AreSound vs
  | set vs => AreSound vs ∧ setOf vs = .set vs
  | dict es => AreSoundEntries es ∧ dictOf es = .dict es
  | _ => True

def AreSound : List Value → Prop
  | [] => True
  | v :: vs => IsSound v ∧ AreSound vs

def AreSoundEntries : List (Value × Value) → Prop
  | [] => True
  | (k, v) :: es => (IsSound k ∧ IsSound v) ∧ AreSoundEntries es

end

theorem toList_bracketed (a b : String) (ts : List String) :
    (a ++ String.intercalate ", " ts ++ b).toList = a.toList ++ (commas (ts.map String.toList) ++ b.toList) := by
  simp [commas]

theorem means_of_angled {v : Value} {t : String} (h : t.toList.head? = some '<') : Means t.toList v := by
  obtain ⟨cs, hcs⟩ := List.head?_eq_some_iff.1 h
  rw [hcs]
  exact means_angled cs v

/-- A verdict is written as a call, which no literal is. -/
theorem means_verdict (k : Verdict) (t : String) (v : Value) : Means (k.name ++ "(value=" ++ t ++ ")").toList v := by
  have htext : (k.name ++ "(value=" ++ t ++ ")").toList = k.name.toList ++ ("(value=".toList ++ t.toList ++ ")".toList) := by
    simp
  rw [htext]
  cases k
  · exact means_word (show isWord "ShortCircuit".toList = true by decide +kernel) (Or.inr rfl) (Or.inl (by decide))
  · exact means_word (show isWord "Replace".toList = true by decide +kernel) (Or.inr rfl) (Or.inl (by decide))

variable {other : Speller}

mutual

/-- What is written for a value means it. -/
theorem means_of_spell? (angled : ∀ o t, other o = some t → t.toList.head? = some '<') :
    (v : Value) → {t : String} → v.IsSound → spell? other v = some t → Means t.toList v
  | none, _, _, h => by
    cases h
    exact means_word (show isWord ['N', 'o', 'n', 'e'] = true by decide +kernel) (Or.inl rfl) (Or.inr ⟨rfl, rfl⟩)
  | bool true, _, _, h => by
    cases h
    exact means_word (show isWord ['T', 'r', 'u', 'e'] = true by decide +kernel) (Or.inl rfl) (Or.inr ⟨rfl, rfl⟩)
  | bool false, _, _, h => by
    cases h
    exact means_word (show isWord ['F', 'a', 'l', 's', 'e'] = true by decide +kernel) (Or.inl rfl) (Or.inr ⟨rfl, rfl⟩)
  | int i, _, _, h => by
    cases h
    exact means_int i
  | float x, _, hsound, h => by
    cases h
    exact hsound
  | complex re im, _, hsound, h => by
    cases h
    exact hsound
  | str s, _, _, h => by
    cases h
    exact means_str s
  | bytes bs, _, hsound, h => by
    cases h
    exact means_bytes hsound
  | ellipsis, _, _, h => by
    cases h
    exact means_word (show isWord ['E', 'l', 'l', 'i', 'p', 's', 'i', 's'] = true by decide +kernel) (Or.inl rfl) (Or.inl rfl)
  | list vs, _, hsound, h => by
    rw [spell?] at h
    obtain ⟨ts, hts, rfl⟩ := Option.map_eq_some_iff.1 h
    rw [toList_bracketed]
    exact means_list (means_of_spellAll? angled vs hsound hts)
  | tuple [], _, _, h => by
    cases h
    exact means_noTuple
  | tuple [v], _, hsound, h => by
    rw [spell?] at h
    obtain ⟨t, ht, rfl⟩ := Option.map_eq_some_iff.1 h
    have hmeans := means_oneTuple (means_of_spell? angled v hsound.1 ht)
    rw [← List.singleton_append] at hmeans
    simpa using hmeans
  | tuple (v :: v' :: vs), _, hsound, h => by
    have h : (spellAll? other (v :: v' :: vs)).map _ = _ := h
    obtain ⟨ts, hts, rfl⟩ := Option.map_eq_some_iff.1 h
    have hmeans : List.Forall₂ Means (ts.map String.toList) (v :: v' :: vs) := means_of_spellAll? angled (v :: v' :: vs) hsound hts
    rw [toList_bracketed]
    generalize ts.map String.toList = texts at hmeans
    cases hmeans with
    | cons ht hmeans =>
      cases hmeans with
      | cons hu hmeans => exact means_tuple ht hu hmeans
  | set [], _, _, h => by
    cases h
    exact means_emptySet
  | set (v :: vs), _, hsound, h => by
    have h : (spellAll? other (v :: vs)).map _ = _ := h
    obtain ⟨ts, hts, rfl⟩ := Option.map_eq_some_iff.1 h
    have hmeans : List.Forall₂ Means (ts.map String.toList) (v :: vs) := means_of_spellAll? angled (v :: vs) hsound.1 hts
    rw [toList_bracketed]
    generalize ts.map String.toList = texts at hmeans
    cases hmeans with
    | cons ht hmeans => exact means_set ht hmeans hsound.2
  | dict es, _, hsound, h => by
    rw [spell?] at h
    obtain ⟨ts, hts, rfl⟩ := Option.map_eq_some_iff.1 h
    have hmeans := means_of_spellEntries? angled es hsound.1 hts
    have hdict := hsound.2
    rw [toList_bracketed]
    generalize ts.map String.toList = texts at hmeans
    cases hmeans with
    | nil => exact means_noTable
    | cons ht hmeans => exact means_table ht hmeans hdict
  | token name, _, _, h => by
    cases h
    exact means_of_angled (by simp)
  | verdict k v, _, _, h => by
    rw [spell?] at h
    obtain ⟨t, -, rfl⟩ := Option.map_eq_some_iff.1 h
    exact means_verdict k t _
  | broken, _, _, h => means_of_angled (angled _ _ h)
  | cls _, _, _, h => means_of_angled (angled _ _ h)
  | inst _, _, _, h => means_of_angled (angled _ _ h)
  | function _, _, _, h => means_of_angled (angled _ _ h)
  | bound _ _, _, _, h => means_of_angled (angled _ _ h)
  | property _ _, _, _, h => means_of_angled (angled _ _ h)
  | pending _ _, _, _, h => means_of_angled (angled _ _ h)

theorem means_of_spellAll? (angled : ∀ o t, other o = some t → t.toList.head? = some '<') :
    (vs : List Value) → {ts : List String} → AreSound vs → spellAll? other vs = some ts →
      List.Forall₂ Means (ts.map String.toList) vs
  | [], _, _, h => by
    cases h
    exact .nil
  | v :: vs, _, hsound, h => by
    rw [spellAll?] at h
    obtain ⟨t, ht, h⟩ := Option.bind_eq_some_iff.1 h
    obtain ⟨ts, hts, h⟩ := Option.bind_eq_some_iff.1 h
    cases h
    exact .cons (means_of_spell? angled v hsound.1 ht) (means_of_spellAll? angled vs hsound.2 hts)

theorem means_of_spellEntries? (angled : ∀ o t, other o = some t → t.toList.head? = some '<') :
    (es : List (Value × Value)) → {ts : List String} → AreSoundEntries es → spellEntries? other es = some ts →
      List.Forall₂ MeansEntry (ts.map String.toList) es
  | [], _, _, h => by
    cases h
    exact .nil
  | (k, v) :: es, _, hsound, h => by
    rw [spellEntries?] at h
    obtain ⟨t, ht, h⟩ := Option.bind_eq_some_iff.1 h
    obtain ⟨u, hu, h⟩ := Option.bind_eq_some_iff.1 h
    obtain ⟨ts, hts, h⟩ := Option.bind_eq_some_iff.1 h
    cases h
    refine .cons ⟨t.toList, u.toList, ?_, means_of_spell? angled k hsound.1.1 ht, means_of_spell? angled v hsound.1.2 hu⟩
      (means_of_spellEntries? angled es hsound.2 hts)
    simp

end

end Amalgam.Value
