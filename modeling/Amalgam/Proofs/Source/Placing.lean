import Amalgam.Proofs.Source.Rereading

/-!
# A literal in its place in code

A literal becomes the value of a field if it begins on its first line (`isSome_fieldText?`), and the default of a parameter if it
begins without a blank (`isSome_paramText?`). On the line of the field it is read as its own value, unless its line ends with a
continued one (`readsLine_fieldText_iff`); in the parameter list it is, unless it is a tuple without brackets
(`item?_paramText`).
-/

namespace Amalgam.Source.Layout

open Literal

/-! ## Where a text begins -/

theorem indentation_snd (column kept : Nat) (cs : List Char) : (indentation column kept cs).2 = blanks cs := by
  fun_induction indentation column kept cs with
  | case1 column kept c rest ih => rw [ih, blanks]
  | case2 column kept c rest hfeed hc =>
    rw [blanks, if_pos hc]
    exact hfeed
  | case3 column kept c rest hfeed hc ih =>
    rw [ih, blanks, if_neg hc]
    exact hfeed
  | case4 column kept c rest ih => rw [ih, blanks]
  | case5 column kept rest ih => rw [ih, blanks_gap rfl]
  | case6 column kept rest ih => rw [ih, blanks_gap rfl]
  | case7 column kept rest ih => rw [ih, blanks_gap rfl]
  | case8 column kept cs htwo hreturn hline hblank htab hfeed =>
    show cs = blanks cs
    cases cs with
    | nil => rfl
    | cons c rest =>
      have hgap : isGap c = false := by
        refine Bool.eq_false_iff.2 fun hc => ?_
        simp only [isGap, Bool.or_eq_true, beq_iff_eq] at hc
        rcases hc with (rfl | rfl) | rfl
        · exact hblank _ rfl
        · exact htab _ rfl
        · exact hfeed _ rfl
      rw [blanks, hgap]
      · rfl
      · exact fun d more hc hrest => htwo d more (by rw [hc, hrest])
      · exact fun d more hc hrest => hreturn d more (by rw [hc, hrest])
      · exact fun d more hc hrest => hline d more (by rw [hc, hrest])

/-- A text whose first line begins with a token has it for its first one. -/
theorem firstToken?_eq_blanks {fuel : Nat} {cs body : List Char} (h : firstToken? fuel cs = some body)
    (hbegins : ∃ c ∈ (blanks cs).head?, c ≠ '#' ∧ isLineEnd c = false) : body = blanks cs := by
  obtain ⟨c, hc, hcomment, hend⟩ := hbegins
  obtain ⟨more, hmore⟩ := List.head?_eq_some_iff.1 hc
  have hsnd := indentation_snd 0 0 cs
  cases fuel with
  | zero => cases h
  | succ fuel =>
    rw [firstToken?] at h
    generalize indentation 0 0 cs = place at h hsnd
    obtain ⟨column, rest⟩ := place
    obtain rfl : rest = c :: more := hsnd.trans hmore
    rw [hmore]
    dsimp only at h
    rw [if_neg (by simpa using hcomment), hend, if_neg Bool.false_ne_true] at h
    split at h
    · cases h
      rfl
    · cases h

/-- A space or a tab. -/
def isBlank (c : Char) : Bool := c == ' ' || c == '\t'

theorem front_eq (text : String) : front text = text.toList.dropWhile isBlank := rfl

theorem blanks_front (text : String) : blanks (front text) = blanks text.toList := by
  rw [front_eq]
  induction text.toList with
  | nil => rfl
  | cons c cs ih =>
    by_cases hc : isBlank c = true
    · have hgap : isGap c = true := Bool.or_eq_true_iff.2 (Or.inl hc)
      rw [List.dropWhile_cons_of_pos hc, ih, blanks_gap hgap]
    · rw [List.dropWhile_cons_of_neg hc]

/-- A literal is one expression, with nothing behind it. -/
theorem read?_eq_some {text : String} {v : Value} (h : read? text = some v) :
    ∃ body rest, firstToken? (text.length + 1) (front text) = some body ∧ Literal.expression? body = some (v, rest) ∧
      isTail rest = true := by
  unfold read? at h
  split at h
  · cases h
  obtain ⟨body, hbody, h⟩ := Option.bind_eq_some_iff.1 h
  obtain ⟨⟨w, rest⟩, hread, h⟩ := Option.bind_eq_some_iff.1 h
  dsimp only at h
  split at h
  · cases h
    exact ⟨body, rest, hbody, hread, ‹_›⟩
  · cases h

/-- Whether the first line of a text begins with a token, blanks aside: not with its end or a comment. -/
def beginsOnLine (text : String) : Bool := (blanks text.toList).head?.any fun c => c != '#' && !isLineEnd c

/-- Whether a text begins with neither a space nor a tab. -/
def beginsFlush (text : String) : Bool := text.toList.head?.all fun c => !isBlank c

theorem beginsOnLine_iff {text : String} :
    beginsOnLine text = true ↔ ∃ c ∈ (blanks text.toList).head?, c ≠ '#' ∧ isLineEnd c = false := by
  unfold beginsOnLine
  simp [Option.any_eq_true]

section Read

variable {text : String} {v : Value} (h : read? text = some v)

include h

/-- A literal that begins on its first line is an expression there. -/
theorem expression?_of_beginsOnLine (hbegins : beginsOnLine text = true) :
    ∃ rest, Literal.expression? (blanks text.toList) = some (v, rest) ∧ isTail rest = true := by
  obtain ⟨body, rest, hbody, hread, htail⟩ := read?_eq_some h
  rw [beginsOnLine_iff, ← blanks_front] at hbegins
  rw [firstToken?_eq_blanks hbody hbegins, blanks_front] at hread
  exact ⟨rest, hread, htail⟩

/-- A literal can be put behind the name of a field if it begins on its first line. -/
theorem isSome_fieldText? : (fieldText? text).isSome = beginsOnLine text := by
  unfold fieldText? expression?
  rw [Option.isSome_map, Option.isSome_map]
  refine Bool.eq_iff_iff.2 ⟨fun hsome => ?_, fun hbegins => ?_⟩
  · obtain ⟨⟨w, rest⟩, hread⟩ := Option.isSome_iff_exists.1 hsome
    rw [expression?_eq] at hread
    obtain ⟨⟨part, more⟩, hpart, -⟩ := Option.bind_eq_some_iff.1 hread
    obtain ⟨c, x, hblanks, hopens⟩ := exists_opens_of_sum hpart
    obtain ⟨-, hend, -, hcomment⟩ := (Site.stops_of_opens hopens).ne
    exact beginsOnLine_iff.2 ⟨c, by rw [hblanks]; rfl, hcomment, hend⟩
  · obtain ⟨rest, hread, -⟩ := expression?_of_beginsOnLine h hbegins
    exact Option.isSome_iff_exists.2 ⟨_, hread⟩

omit h in
theorem front_eq_of_beginsFlush (hbegins : beginsFlush text = true) : front text = text.toList := by
  rw [front_eq]
  unfold beginsFlush at hbegins
  cases hcs : text.toList with
  | nil => rfl
  | cons c cs =>
    rw [hcs] at hbegins
    exact List.dropWhile_cons_of_neg (by simpa using hbegins)

/-- The default that a literal becomes, if it begins without a blank. -/
theorem paramText?_eq : ∃ body rest, firstToken? (text.length + 1) (front text) = some body ∧
    Literal.expression? body = some (v, rest) ∧ paramText? text = if beginsFlush text then
      some (String.ofList (layout (firstLineEnd text.toList) classIndent .code 0 (before rest body))) else none := by
  obtain ⟨body, rest, hbody, hread, -⟩ := read?_eq_some h
  refine ⟨body, rest, hbody, hread, ?_⟩
  have hfront : beginsFlush text = true → front text = text.toList := front_eq_of_beginsFlush
  unfold paramText?
  unfold beginsFlush at hfront ⊢
  cases hcs : text.toList with
  | nil =>
    rw [front_eq, hcs] at hbody
    cases hbody
  | cons c cs =>
    rw [hcs] at hfront
    show (if isBlank c = true then _ else _) = if (!isBlank c) = true then _ else _
    cases hc : isBlank c with
    | true => rfl
    | false =>
      rw [hfront (by simp [hc]), ← String.length_toList, hcs] at hbody
      rw [if_neg Bool.false_ne_true, hbody]
      show (expression? _ body).bind _ = _
      rw [expression?, hread]
      rfl

/-- A literal can be put in as a default if it begins without a blank. -/
theorem isSome_paramText? : (paramText? text).isSome = beginsFlush text := by
  obtain ⟨body, rest, -, -, heq⟩ := paramText?_eq h
  rw [heq]
  cases beginsFlush text <;> rfl

end Read

/-! ## What stands behind a field's value -/

theorem before_append (t rest : List Char) : before rest (t ++ rest) = t := by
  unfold before
  rw [List.length_append, Nat.add_sub_cancel, List.take_left]

theorem eq_before_append {rest cs : List Char} (h : rest <:+ cs) : cs = before rest cs ++ rest := by
  obtain ⟨t, rfl⟩ := h
  rw [before_append]

/-- Blanks and continued lines in front of a text can be followed by another one, unless that ends a line that they continue. -/
theorem blanks_before {cs x : List Char} {c : Char} (h : blanks cs = c :: x) (hslash : c ≠ '\\') {c' : Char}
    (hgap : isGap c' = false) (hslash' : c' ≠ '\\') (hfeed : c' = '\n' → ¬['\\', '\r'] <:+ before (c :: x) cs) (x' : List Char) :
    blanks (before (c :: x) cs ++ c' :: x') = c' :: x' := by
  have hstop : blanks (c' :: x') = c' :: x' := blanks_of_not_gap hgap hslash' x'
  generalize hlead : before (c :: x) cs = lead at hfeed ⊢
  have heq : cs = lead ++ c :: x := hlead ▸ eq_before_append (h ▸ suffix_blanks cs)
  clear hlead
  subst heq
  induction hk : lead.length using Nat.strongRecOn generalizing lead with
  | ind k ih =>
  cases lead with
  | nil => exact hstop
  | cons d lead =>
    rw [List.length_cons] at hk
    have hlast : ∀ {t : List Char}, t <:+ d :: lead → c' = '\n' → ¬['\\', '\r'] <:+ t := fun ht hc hlone =>
      hfeed hc (hlone.trans ht)
    by_cases hd : d = '\\'
    · subst hd
      obtain ⟨mark, rest, hmark, hcontinues⟩ := blanks_backslash h hslash
      have hmark : lead ++ c :: x = mark ++ rest := hmark
      have hrest : blanks rest = c :: x := by
        rw [List.cons_append, hmark] at h
        exact (trivia_continued hcontinues false).symm.trans h
      have hle := (suffix_blanks rest).length_le
      have hlength := congrArg List.length hmark
      rw [hrest, List.length_cons] at hle
      simp only [List.length_append, List.length_cons] at hlength
      obtain ⟨lead, rfl, rfl⟩ : ∃ a, lead = mark ++ a ∧ rest = a ++ c :: x := by
        obtain ⟨a, rfl, ha⟩ | ⟨a, rfl, rfl⟩ := List.append_eq_append_iff.1 hmark
        · rw [List.length_append] at hlength
          obtain rfl : a = [] := List.length_eq_zero_iff.1 (by omega)
          exact ⟨[], by simp, by simpa using ha.symm⟩
        · exact ⟨a, rfl, rfl⟩
      have hcontinues' : Continues mark (lead ++ c' :: x') := by
        refine ⟨hcontinues.1, by simp, fun hlone => ?_⟩
        cases lead with
        | nil =>
          subst hlone
          exact fun hc => hlast List.suffix_rfl (Option.some.inj hc) List.suffix_rfl
        | cons d lead => exact hcontinues.2.2 hlone
      have hsuffix : lead <:+ '\\' :: (mark ++ lead) := (List.suffix_append mark lead).trans (List.suffix_cons _ _)
      rw [List.length_append] at hk
      refine Eq.trans ?_ (ih _ (by omega) lead (hlast hsuffix) hrest rfl)
      rw [List.cons_append, List.append_assoc, ← List.cons_append]
      exact trivia_continued hcontinues' false
    by_cases hgapd : isGap d = true
    · rw [List.cons_append, blanks_gap hgapd] at h ⊢
      exact ih _ (by omega) lead (hlast (List.suffix_cons d lead)) h rfl
    · rw [List.cons_append, blanks_of_not_gap (Bool.eq_false_iff.2 hgapd) hd] at h
      have := congrArg List.length h
      simp only [List.length_cons, List.length_append] at this
      omega

theorem blanks_append_of_nil {t : List Char} (h : blanks t = []) (u : List Char) : blanks (t ++ u) = blanks u := by
  fun_induction blanks t with
  | case1 c rest ih => exact ih h
  | case2 => cases h
  | case3 c rest hfeed hc ih =>
    rw [List.cons_append, List.cons_append, List.cons_append, blanks, if_neg hc]
    · exact ih h
    · exact fun _ _ heq => absurd (beq_iff_eq.2 heq) hc
  | case4 c rest ih => exact ih h
  | case5 c rest _ _ _ hgap ih =>
    rw [List.cons_append, blanks_gap hgap]
    exact ih h
  | case6 => cases h
  | case7 => rfl

/-- What may stand behind a value on its line: nothing or a comment. -/
def IsRemark (remark : List Char) : Prop := (∀ c ∈ remark.head?, c = '#') ∧ ∀ c ∈ remark, isLineEnd c = false

theorem isRemark_nil : IsRemark [] := by
  refine ⟨fun c hc => ?_, fun c hc => absurd hc List.not_mem_nil⟩
  cases hc

/-- What is kept of a line behind the value in front of it. -/
def tailOf (rest : List Char) : List Char := before (blanks rest) rest ++ (blanks rest).takeWhile fun c => !isLineEnd c

/-- Nothing but a comment stands behind a literal on its line. -/
theorem isTail_cases {rest : List Char} (h : isTail rest = true) :
    blanks rest = [] ∨ ∃ c x, blanks rest = c :: x ∧ (c = '#' ∨ isLineEnd c = true) := by
  unfold isTail at h
  split at h
  · exact Or.inl ‹_›
  · rename_i c x hblanks
    refine Or.inr ⟨c, x, hblanks, ?_⟩
    by_contra hno
    obtain ⟨hcomment, hend⟩ := not_or.1 hno
    rw [if_neg (by simpa using hcomment), if_neg hend] at h
    cases h

section Tail

variable {rest : List Char}

theorem tailOf_of_nil (h : blanks rest = []) : tailOf rest = rest := by
  unfold tailOf
  rw [h]
  simp [before]

theorem tailOf_of_comment {x : List Char} (h : blanks rest = '#' :: x) :
    ∃ remark, IsRemark ('#' :: remark) ∧ tailOf rest = before ('#' :: x) rest ++ '#' :: remark := by
  refine ⟨x.takeWhile fun c => !isLineEnd c, ⟨fun c hc => (Option.some.inj hc).symm, fun c hc => ?_⟩, ?_⟩
  · rcases List.mem_cons.1 hc with rfl | hc
    · rfl
    · simpa using List.all_eq_true.1 List.all_takeWhile c hc
  · unfold tailOf
    rw [h, List.takeWhile_cons_of_pos (by decide)]

theorem tailOf_of_lineEnd {c : Char} {x : List Char} (h : blanks rest = c :: x) (hc : isLineEnd c = true) :
    tailOf rest = before (c :: x) rest := by
  unfold tailOf
  rw [h, List.takeWhile_cons_of_neg (by simp [hc]), List.append_nil]

/-- A line that ends with a literal in code ends there as well, unless it would be continued. -/
theorem exists_remark (h : isTail rest = true) (hfeed : ¬['\\', '\r'] <:+ tailOf rest) (more : List Char) :
    ∃ remark, IsRemark remark ∧ blanks (tailOf rest ++ '\n' :: more) = remark ++ '\n' :: more := by
  rcases isTail_cases h with hnil | ⟨c, x, hblanks, rfl | hend⟩
  · refine ⟨[], isRemark_nil, ?_⟩
    rw [tailOf_of_nil hnil, blanks_append_of_nil hnil]
    rfl
  · obtain ⟨remark, hremark, heq⟩ := tailOf_of_comment hblanks
    refine ⟨'#' :: remark, hremark, ?_⟩
    rw [heq, List.append_assoc]
    exact blanks_before hblanks (by decide) (by decide) (by decide) (fun hc => by cases hc) _
  · rw [tailOf_of_lineEnd hblanks hend] at hfeed ⊢
    have hslash : c ≠ '\\' := by
      rintro rfl
      cases hend
    exact ⟨[], isRemark_nil, blanks_before hblanks hslash (by decide) (by decide) (fun _ => hfeed) more⟩

end Tail

/-- Blanks and continued lines in front of a backslash are dropped, whatever follows it. -/
theorem blanks_slash {t w x : List Char} {c : Char} (h : blanks (t ++ '\\' :: w) = c :: x) (hslash : c ≠ '\\')
    (hx : x.length ≤ w.length) (z : List Char) : blanks (t ++ '\\' :: z) = blanks ('\\' :: z) := by
  induction hk : t.length using Nat.strongRecOn generalizing t with
  | ind k ih =>
  cases t with
  | nil => rfl
  | cons d t =>
    rw [List.length_cons] at hk
    by_cases hd : d = '\\'
    · subst hd
      obtain ⟨mark, rest, hmark, hcontinues⟩ := blanks_backslash h hslash
      have hmark : t ++ '\\' :: w = mark ++ rest := hmark
      have hno : '\\' ∉ mark := by
        have hall : ∀ mark ∈ lineEnds, '\\' ∉ mark := by decide
        exact hall mark hcontinues.1
      obtain ⟨t, rfl, rfl⟩ : ∃ a, t = mark ++ a ∧ rest = a ++ '\\' :: w := by
        obtain ⟨a, rfl, ha⟩ | ⟨a, rfl, rfl⟩ := List.append_eq_append_iff.1 hmark
        · cases a with
          | nil => exact ⟨[], by simp, by simpa using ha.symm⟩
          | cons e a =>
            obtain ⟨rfl, -⟩ := List.cons.inj ha
            exact absurd (List.mem_append_right _ List.mem_cons_self) hno
        · exact ⟨a, rfl, rfl⟩
      have hrest : blanks (t ++ '\\' :: w) = c :: x := by
        rw [List.cons_append, hmark] at h
        exact (trivia_continued hcontinues false).symm.trans h
      have hcontinues' : Continues mark (t ++ '\\' :: z) := by
        refine ⟨hcontinues.1, by simp, fun hlone => ?_⟩
        cases t with
        | nil => exact fun hc => absurd (Option.some.inj hc) (by decide)
        | cons d t => exact hcontinues.2.2 hlone
      rw [List.length_append] at hk
      refine Eq.trans ?_ (ih _ (by omega) hrest rfl)
      rw [List.cons_append, List.append_assoc, ← List.cons_append]
      exact trivia_continued hcontinues' false
    by_cases hgapd : isGap d = true
    · rw [List.cons_append, blanks_gap hgapd] at h ⊢
      exact ih _ (by omega) h rfl
    · rw [List.cons_append, blanks_of_not_gap (Bool.eq_false_iff.2 hgapd) hd] at h
      have := congrArg List.length h
      simp only [List.length_cons, List.length_append] at this
      omega

/-- A line that ends with a continued one goes on in the next. -/
theorem blanks_tailOf {rest : List Char} (h : isTail rest = true) (hfeed : ['\\', '\r'] <:+ tailOf rest) {more : List Char}
    (hmore : more ≠ []) : blanks (tailOf rest ++ '\n' :: more) = blanks more := by
  obtain ⟨t, ht⟩ := hfeed
  obtain ⟨d, y, rfl⟩ := List.exists_cons_of_ne_nil hmore
  rcases isTail_cases h with hnil | ⟨c, x, hblanks, rfl | hend⟩
  · -- a text of blanks ends with no backslash
    rw [tailOf_of_nil hnil] at ht
    have hfeed : blanks (t ++ '\\' :: ['\r', '\n']) = ['\n'] := by
      have := blanks_append_of_nil hnil ['\n']
      rwa [← ht, List.append_assoc] at this
    have hkeep := (blanks_slash hfeed (by decide) (Nat.zero_le _) ['\r', '\n']).symm.trans hfeed
    cases hkeep
  · obtain ⟨remark, hremark, heq⟩ := tailOf_of_comment hblanks
    have hlast := congrArg List.getLast? (ht.trans heq)
    rw [List.getLast?_append_of_ne_nil _ (List.cons_ne_nil _ _), List.getLast?_append_of_ne_nil _ (List.cons_ne_nil _ _)] at hlast
    exact absurd (hremark.2 '\r' (List.mem_of_getLast? hlast.symm)) (by decide)
  · rw [tailOf_of_lineEnd hblanks hend] at ht ⊢
    have hrest := eq_before_append (hblanks ▸ suffix_blanks rest)
    have hslash : c ≠ '\\' := by
      rintro rfl
      cases hend
    rw [hrest, ← ht, List.append_assoc] at hblanks
    rw [← ht, List.append_assoc]
    refine (blanks_slash hblanks hslash ?_ ('\r' :: '\n' :: d :: y)).trans rfl
    show x.length ≤ x.length + 1 + 1
    omega

/-- The remark on a former visibility ends the line. -/
theorem exists_remark_visibility (visibility : Visibility) (more : List Char) : ∃ remark, IsRemark remark ∧
    blanks (("  # was " ++ visibility.text).toList ++ '\n' :: more) = remark ++ '\n' :: more := by
  refine ⟨("# was " ++ visibility.text).toList, ?_, ?_⟩
  · have hmark : ("# was " ++ visibility.text).toList.head? = some '#' := by cases visibility <;> decide
    refine ⟨fun c hc => Option.some.inj ((Option.mem_def.1 hc).symm.trans hmark), ?_⟩
    cases visibility <;> decide
  · cases visibility <;> rfl

theorem layout_ne_nil (plain indent : List Char) (n : Nat) {t : List Char} (ht : t ≠ []) : layout plain indent .code n t ≠ [] := by
  obtain ⟨c, u, rfl⟩ := List.exists_cons_of_ne_nil ht
  by_cases hc : isLineEnd c = true
  · obtain ⟨found, hfound, more, hmore⟩ := exists_layout_lineEnd plain indent n hc u
    have hmem := writtenLineEnd_mem plain hfound
    rw [hmore]
    intro hnil
    rw [(List.append_eq_nil_iff.1 hnil).1] at hmem
    exact absurd hmem (by decide)
  · obtain ⟨more, hmore⟩ := layout_head plain indent n (Bool.eq_false_iff.2 hc) u
    rw [hmore]
    exact List.cons_ne_nil _ _

/-! ## What is read in the code -/

/-- A value is read at the front of a line, and nothing but a remark stands behind it, whatever the next lines are. -/
def ReadsLine (line : List Char) (v : Value) : Prop := ∀ more, ∃ rest remark, IsRemark remark ∧
  Literal.expression? (blanks (line ++ '\n' :: more)) = some (v, rest) ∧ blanks rest = remark ++ '\n' :: more

/-- The value of the item at the front of a text within a bracket of code, and what follows it. -/
def item? (cs : List Char) : Option (Value × List Char) :=
  (sum? (3 * cs.length + 3) (maxDepth - 1) cs).bind fun x => x.1.value?.map fun v => (v, x.2)

/-- A literal that is all of a text on one line is the value of a field as it stands. -/
theorem fieldText?_eq_self {text : String} {v : Value} (hfront : blanks text.toList = text.toList)
    (hread : Literal.expression? text.toList = some (v, [])) (hline : ∀ c ∈ text.toList, isLineEnd c = false) :
    fieldText? text = some (text, "") := by
  unfold fieldText? expression?
  dsimp only
  rw [hfront, hread]
  simp [before, layout_eq_self hline, blanks]

section Read

variable {text : String} {v : Value} (h : read? text = some v)

include h

/-- What a literal becomes behind the name of a field, if it begins on its first line. -/
theorem fieldText?_eq (hbegins : beginsOnLine text = true) :
    ∃ rest, Literal.expression? (blanks text.toList) = some (v, rest) ∧ isTail rest = true ∧ fieldText? text =
      some (String.ofList (before (blanks text.toList) text.toList ++
        layout (firstLineEnd text.toList) classIndent .code 0 (before rest (blanks text.toList))), String.ofList (tailOf rest)) := by
  obtain ⟨rest, hread, htail⟩ := expression?_of_beginsOnLine h hbegins
  refine ⟨rest, hread, htail, ?_⟩
  show ((expression? _ (blanks text.toList)).map _) = _
  rw [expression?, hread]
  rfl

/-- The value of a field is read in the code as the literal's if its line ends behind it; else a comma behind the last item of
a tuple may spoil it. -/
theorem expression?_fieldText {value tail : String} (htext : fieldText? text = some (value, tail)) {after more : List Char} {c : Char}
    (hafter : blanks after = c :: more) (hc : c ∈ [')', '#', '\n', '\r']) :
    Literal.expression? (blanks (value.toList ++ after)) = some (v, after) ∨
      Literal.expression? (blanks (value.toList ++ after)) = none ∧ ¬EndsLine after := by
  have hbegins : beginsOnLine text = true := by
    rw [← isSome_fieldText? h, htext]
    rfl
  obtain ⟨rest, hread, -, heq⟩ := fieldText?_eq h hbegins
  rw [htext] at heq
  obtain ⟨hvalue, -⟩ := Prod.mk.inj (Option.some.inj heq)
  let p : Site :=
    { plain := firstLineEnd text.toList, indent := classIndent, behind := rest, after, brackets := 0
      indent_eq := by decide
      after_ends := ⟨c, more, hafter, List.mem_cons_of_mem _ hc⟩ }
  have hcomma : ∀ more, blanks p.after ≠ ',' :: more := fun x hx => by
    obtain rfl : c = ',' := (List.cons.inj (hafter.symm.trans hx)).1
    exact absurd hc (by decide)
  generalize hbody : blanks text.toList = body at hread hvalue
  obtain ⟨d, y, rfl, hrest⟩ := leaves_expression hread
  have hopens : Opens d := by
    rw [expression?_eq] at hread
    obtain ⟨z, hz, -⟩ := Option.bind_eq_some_iff.1 hread
    obtain ⟨e, w, heq, hopens⟩ := exists_opens_of_sum hz
    rwa [(List.cons.inj heq).1]
  obtain ⟨hgap, hend, hslash, -⟩ := (Site.stops_of_opens hopens).ne
  have htaken : before rest (d :: y) = d :: before rest y := by
    obtain ⟨t, rfl⟩ := hrest
    rw [before_append]
    exact before_append (d :: t) rest
  obtain ⟨z, hz⟩ := layout_head p.plain p.indent 0 hend (before rest y)
  have halike : p.Alike 0 (d :: y) (d :: z ++ after) := by
    refine ⟨d :: before rest y, ?_, by rw [hz], Or.inl rfl⟩
    exact congrArg (d :: ·) (eq_before_append hrest)
  have hfeed : d ≠ '\n' := by
    rintro rfl
    cases hend
  rw [hvalue, String.toList_ofList, htaken]
  rw [show layout (firstLineEnd text.toList) classIndent .code 0 (d :: before rest y) = d :: z from hz, List.append_assoc]
  rw [List.cons_append, blanks_before hbody hslash hgap hslash (fun heq => absurd heq hfeed)]
  exact halike.expression rfl hcomma hread

/-- Whatever ends the line of a field, its value is read as the literal's. -/
theorem readsLine_of_remark {value tail : String} (htext : fieldText? text = some (value, tail)) {behind : List Char}
    (hbehind : ∀ more, ∃ remark, IsRemark remark ∧ blanks (behind ++ '\n' :: more) = remark ++ '\n' :: more) :
    ReadsLine (value.toList ++ behind) v := by
  intro more
  obtain ⟨remark, hremark, hblanks⟩ := hbehind more
  have hhead : ∃ c x, blanks (behind ++ '\n' :: more) = c :: x ∧ (c = '#' ∨ c = '\n') := by
    rw [hblanks]
    cases remark with
    | nil => exact ⟨_, _, rfl, Or.inr rfl⟩
    | cons c remark => exact ⟨c, _, rfl, Or.inl (hremark.1 c rfl)⟩
  obtain ⟨c, x, hc, hcases⟩ := hhead
  have hmem : c ∈ [')', '#', '\n', '\r'] := by rcases hcases with rfl | rfl <;> decide
  refine ⟨behind ++ '\n' :: more, remark, hremark, ?_, hblanks⟩
  rw [List.append_assoc]
  refine (expression?_fieldText h htext hc hmem).resolve_right fun hno => hno.2 fun d hd => ?_
  rw [hc] at hd
  cases hd
  rcases hcases with rfl | rfl
  · exact Or.inl rfl
  · exact Or.inr rfl

/-- The value of a field is read on its line as the literal's, unless the literal's own line ends with a continued one. -/
theorem readsLine_fieldText_iff {value tail : String} (htext : fieldText? text = some (value, tail)) :
    ReadsLine (value.toList ++ tail.toList) v ↔ ¬['\\', '\r'] <:+ tail.toList := by
  have hbegins : beginsOnLine text = true := by
    rw [← isSome_fieldText? h, htext]
    rfl
  obtain ⟨rest, -, htail, heq⟩ := fieldText?_eq h hbegins
  rw [htext] at heq
  have hrest : tail.toList = tailOf rest := by rw [(Prod.mk.inj (Option.some.inj heq)).2, String.toList_ofList]
  constructor
  · intro hread hfeed
    have hafter : blanks (tail.toList ++ ['\n', ')']) = [')'] := by
      rw [hrest] at hfeed ⊢
      exact blanks_tailOf htail hfeed (by decide)
    obtain ⟨left, remark, -, hleft, hblanks⟩ := hread [')']
    rw [List.append_assoc] at hleft
    rcases expression?_fieldText h htext hafter (by decide) with heq | ⟨hnone, -⟩
    · obtain ⟨-, rfl⟩ := Prod.mk.inj (Option.some.inj (heq.symm.trans hleft))
      rw [hafter] at hblanks
      have hlength := congrArg List.length hblanks
      simp only [List.length_append, List.length_cons, List.length_nil] at hlength
      omega
    · rw [hnone] at hleft
      cases hleft
  · intro hfeed
    rw [hrest] at hfeed ⊢
    exact readsLine_of_remark h htext fun more => exists_remark htail hfeed more

omit h in
/-- How deep the brackets of a literal nest, its first token and its end known. -/
theorem nesting_eq {body rest : List Char} (hbody : firstToken? (text.length + 1) (front text) = some body)
    (hread : Literal.expression? body = some (v, rest)) : nesting text = deepest .code 0 (before rest body) := by
  unfold nesting
  rw [hbody]
  dsimp only
  rw [hread]

/-- A literal is a tuple without brackets exactly if a comma follows its first item. -/
theorem openItems?_eq_none_iff {body rest : List Char} {part : Part} (hbody : firstToken? (text.length + 1) (front text) = some body)
    (hpart : sum? (3 * body.length + 3) maxDepth body = some (part, rest)) :
    openItems? text = none ↔ ∀ more, blanks rest ≠ ',' :: more := by
  obtain ⟨body', tail, hbody', hread, -⟩ := read?_eq_some h
  obtain rfl : body' = body := Option.some.inj (hbody'.symm.trans hbody)
  rw [expression?_eq, hpart, Option.bind_some] at hread
  obtain ⟨u, -, hread⟩ := Option.bind_eq_some_iff.1 hread
  unfold openItems?
  rw [hbody, h, Option.bind_eq_bind, Option.bind_some, hpart, Option.bind_eq_bind, Option.bind_some]
  dsimp only
  constructor
  · intro hnone more hmore
    rw [itemTail?_comma hmore] at hread
    obtain ⟨y, -, heq⟩ := Option.map_eq_some_iff.1 hread
    cases heq
    rw [hmore] at hnone
    cases hnone
  · intro hcomma
    split
    · exact absurd ‹_› (hcomma _)
    · rfl

/-- The default of a parameter is read in the parameter list as the literal's value, unless the literal is a tuple without
brackets: then no more than its first item is. -/
theorem item?_paramText {default : String} (htext : paramText? text = some default) (hnesting : nesting text < maxDepth)
    {c : Char} (hc : c = ',' ∨ c = ')') (more : List Char) :
    item? (default.toList ++ c :: more) = some (v, c :: more) ↔ openItems? text = none := by
  obtain ⟨body, rest, hbody, hread, heq⟩ := paramText?_eq h
  rw [htext] at heq
  obtain rfl : default = String.ofList (layout (firstLineEnd text.toList) classIndent .code 0 (before rest body)) := by
    split at heq
    · exact Option.some.inj heq
    · cases heq
  clear heq htext
  rw [nesting_eq hbody hread] at hnesting
  have hstops : Stops c := by rcases hc with rfl | rfl <;> decide
  let p : Site :=
    { plain := firstLineEnd text.toList, indent := classIndent, behind := rest, after := c :: more, brackets := 1
      indent_eq := by decide
      after_ends := ⟨c, more, hstops.trivia_eq true more, by rcases hc with rfl | rfl <;> decide⟩ }
  have halike : p.Alike 0 body (layout p.plain p.indent .code 0 (before rest body) ++ c :: more) :=
    ⟨before rest body, eq_before_append (leaves_expression hread).suffix, rfl, Or.inr hnesting⟩
  have hd : p.Depths 0 maxDepth (maxDepth - 1) := ⟨rfl, rfl⟩
  rw [String.toList_ofList]
  generalize layout (firstLineEnd text.toList) classIndent .code 0 (before rest body) ++ c :: more = code at halike
  rw [expression?_eq] at hread
  obtain ⟨⟨part, rest'⟩, hpart, hread⟩ := Option.bind_eq_some_iff.1 hread
  obtain ⟨u, hu, hread⟩ := Option.bind_eq_some_iff.1 hread
  rw [openItems?_eq_none_iff h hbody hpart]
  by_cases hcomma : ∃ x, blanks rest' = ',' :: x
  · obtain ⟨x, hx⟩ := hcomma
    refine iff_of_false (fun heq => ?_) fun hno => hno x hx
    rw [itemTail?_comma hx] at hread
    obtain ⟨y, hvs, hv⟩ := Option.map_eq_some_iff.1 hread
    have hle : rest.length ≤ x.length := (Prod.mk.inj hv).2 ▸ (suffix_openTuple hvs).length_le
    obtain ⟨r', hpart', t, ht, hr', -⟩ := (p.rereads _).sum hd halike hpart (Or.inr ⟨',', x, hx, by decide, hle⟩)
      (show 3 * code.length + 2 ≤ 3 * code.length + 3 by omega)
    -- the comma is left in the code as well, so more is left than the end of the list
    obtain ⟨y, hy, heq⟩ := Option.bind_eq_some_iff.1 heq
    obtain ⟨w, -, heq⟩ := Option.map_eq_some_iff.1 heq
    obtain rfl : y = (part, r') := Option.some.inj (hy.symm.trans hpart')
    have hnil : layout p.plain p.indent .code 0 t = [] := List.append_left_eq_self.1 (hr'.symm.trans (Prod.mk.inj heq).2)
    have hlength := (suffix_blanks rest').length_le
    rw [hx, ht, List.length_cons, List.length_append] at hlength
    have ht : t ≠ [] := by
      rintro rfl
      have hlength : x.length + 1 ≤ 0 + rest.length := hlength
      omega
    exact layout_ne_nil p.plain p.indent 0 ht hnil
  · have hno : ∀ x, blanks rest' ≠ ',' :: x := fun x heq => hcomma ⟨x, heq⟩
    rw [itemTail?_of_ne hno] at hread
    cases hread
    obtain ⟨r', hpart', halike'⟩ := (p.rereads _).sum hd halike hpart (Or.inl ⟨rfl, rfl⟩)
      (show 3 * code.length + 2 ≤ 3 * code.length + 3 by omega)
    refine iff_of_true (Option.bind_eq_some_iff.2 ⟨_, hpart', Option.map_eq_some_iff.2 ⟨v, hu, ?_⟩⟩) hno
    rw [halike'.eq_after]

end Read

end Amalgam.Source.Layout
