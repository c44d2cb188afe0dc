import Amalgam.Proofs.Source.Verbatim

/-!
# What stands between tokens is written as what stands between tokens

Outside brackets blanks and continued lines are written as they stand; within brackets the indentation follows each line end. So
behind what stands between two tokens the same token is found in the code (`gaps_layout`, `blanks_layout`).
-/

namespace Amalgam.Source.Layout

open Literal

/-! ## Blanks, line ends and comments -/

/-- Characters at which blanks, line ends and comments end. -/
def Stops (c : Char) : Prop := c ∉ [' ', '\t', '\x0c', '\\', '#', '\n', '\r']

instance : DecidablePred Stops := fun c => inferInstanceAs (Decidable (c ∉ _))

section Stops

variable {c : Char} (h : Stops c)

include h

theorem Stops.ne : isGap c = false ∧ isLineEnd c = false ∧ c ≠ '\\' ∧ c ≠ '#' := by
  simp only [Stops, List.mem_cons, List.not_mem_nil, or_false, not_or] at h
  obtain ⟨hblank, htab, hfeed, hslash, hcomment, hline, hreturn⟩ := h
  exact ⟨by simp [isGap, hblank, htab, hfeed], by simp [isLineEnd, hline, hreturn], hslash, hcomment⟩

theorem Stops.gaps_eq (cs : List Char) : gaps false (c :: cs) = c :: cs := by
  obtain ⟨hgap, hend, hslash, hcomment⟩ := h.ne
  rw [gaps, hgap, hend]
  · rfl
  · exact fun _ h _ => hslash h
  · exact fun _ h _ => hslash h
  · exact fun _ h _ => hslash h
  · exact hcomment

theorem Stops.blanks_eq (cs : List Char) : blanks (c :: cs) = c :: cs := by
  obtain ⟨hgap, -, hslash, -⟩ := h.ne
  rw [blanks, hgap]
  · rfl
  · exact fun _ _ h _ => hslash h
  · exact fun _ _ h _ => hslash h
  · exact fun _ _ h _ => hslash h

theorem Stops.trivia_eq (inside : Bool) (cs : List Char) : trivia inside (c :: cs) = c :: cs := by
  cases inside
  · exact h.blanks_eq cs
  · exact h.gaps_eq cs

end Stops

theorem gaps_continued (cs : List Char) : gaps false ('\\' :: '\r' :: cs) = gaps false cs := by
  cases cs with
  | nil => rfl
  | cons c cs =>
    by_cases hc : c = '\n'
    · rw [hc]
      rfl
    · rw [gaps]
      rintro _ ⟨⟩
      exact hc rfl

theorem not_special_of_isGap {d : Char} (h : isGap d = true) : d ∉ special := by
  have hno : ∀ c ∈ special, isGap c = false := by decide
  exact fun hmem => by rw [hno d hmem] at h; cases h

theorem blanks_gap {d : Char} (h : isGap d = true) (cs : List Char) : blanks (d :: cs) = blanks cs := by
  rw [blanks, h]
  · rfl
  all_goals
    intros
    subst_vars
    cases h

theorem gaps_gap {d : Char} (h : isGap d = true) (cs : List Char) : gaps false (d :: cs) = gaps false cs := by
  rw [gaps, h]
  · rfl
  all_goals
    intros
    subst_vars
    cases h

/-- A backslash at the front continues a line, or nothing is dropped. -/
theorem gaps_backslash {c : Char} {cs more : List Char} (h : gaps false ('\\' :: cs) = c :: more) (hc : c ≠ '\\') :
    ∃ e rest, cs = e :: rest ∧ (e = '\n' ∨ e = '\r') ∧ gaps false rest = c :: more := by
  cases cs with
  | nil =>
    cases h
    exact absurd rfl hc
  | cons e rest =>
    refine ⟨e, rest, rfl, ?_⟩
    by_cases hline : e = '\n'
    · rw [hline] at h
      exact ⟨Or.inl hline, h⟩
    by_cases hreturn : e = '\r'
    · rw [hreturn, gaps_continued] at h
      exact ⟨Or.inr hreturn, h⟩
    · have hkeep : gaps false ('\\' :: e :: rest) = '\\' :: e :: rest := by
        rw [gaps]
        · rfl
        · rintro _ - ⟨⟩
          exact hreturn rfl
        · rintro _ - ⟨⟩
          exact hreturn rfl
        · rintro _ - ⟨⟩
          exact hline rfl
        · decide
      rw [hkeep] at h
      cases h
      exact absurd rfl hc

/-! ## Broken lines -/

/-- The ways in which a line may end. -/
def lineEnds : List (List Char) := [['\r', '\n'], ['\r'], ['\n']]

theorem length_pos_of_lineEnds {found : List Char} (h : found ∈ lineEnds) : 0 < found.length := by
  simp only [lineEnds, List.mem_cons, List.not_mem_nil, or_false] at h
  rcases h with rfl | rfl | rfl <;> decide

theorem writtenLineEnd_mem (plain : List Char) {found : List Char} (h : found ∈ lineEnds) : writtenLineEnd plain found ∈ lineEnds := by
  unfold writtenLineEnd
  split
  · decide
  · exact h

section Broken

variable {plain indent found : List Char} (hfound : found ∈ lineEnds)

include hfound

theorem gaps_lineEnd (inComment : Bool) (cs : List Char) : gaps inComment (found ++ cs) = gaps false cs := by
  simp only [lineEnds, List.mem_cons, List.not_mem_nil, or_false] at hfound
  rcases hfound with rfl | rfl | rfl <;> cases inComment <;> rfl

/-- Within brackets nothing stands between the end of a line, as it is written, and the text of the next one. -/
theorem gaps_broken (hindent : ∀ c ∈ indent, c = ' ') (inComment : Bool) (cs : List Char) :
    gaps inComment (writtenLineEnd plain found ++ indent ++ cs) = gaps false cs := by
  rw [List.append_assoc, gaps_lineEnd (writtenLineEnd_mem plain hfound)]
  clear hfound
  induction indent with
  | nil => rfl
  | cons c indent ih =>
    rw [hindent c List.mem_cons_self]
    exact ih fun d hd => hindent d (List.mem_cons_of_mem _ hd)

end Broken

/-- Within a comment, or outside one. -/
def Mode.gap (inComment : Bool) : Mode := if inComment then .comment else .code

/-- Within brackets the indentation follows a line end. -/
theorem exists_broken (plain indent : List Char) {n : Nat} (hn : n ≠ 0) {c : Char} (hc : isLineEnd c = true) (inComment : Bool)
    (cs : List Char) : ∃ found ∈ lineEnds, ∃ rest, c :: cs = found ++ rest ∧
      layout plain indent (Mode.gap inComment) n (c :: cs) = writtenLineEnd plain found ++ indent ++ layout plain indent .code n rest ∧
      deepest .code n rest ≤ deepest (Mode.gap inComment) n (c :: cs) := by
  by_cases htwo : ∃ rest, c :: cs = '\r' :: '\n' :: rest
  · obtain ⟨rest, heq⟩ := htwo
    rw [heq]
    refine ⟨['\r', '\n'], by decide, rest, rfl, ?_, ?_⟩
    · cases inComment with
      | true => rfl
      | false =>
        show writtenLineEnd plain ['\r', '\n'] ++ (if n = 0 then [] else indent) ++ _ = _
        rw [if_neg hn]
    · cases inComment <;> exact Nat.le_refl _
  · have hone : ∀ rest, c = '\r' → cs ≠ '\n' :: rest := by
      rintro rest rfl rfl
      exact htwo ⟨rest, rfl⟩
    have hcases : c = '\r' ∨ c = '\n' := by
      simpa [isLineEnd, or_comm] using hc
    refine ⟨[c], ?_, cs, rfl, ?_, ?_⟩
    · rcases hcases with rfl | rfl <;> decide
    · cases inComment with
      | true =>
        show layout plain indent .comment n (c :: cs) = _
        rw [layout, if_pos hc]
        exact fun rest heq heq' => hone rest heq heq'
      | false =>
        show layout plain indent .code n (c :: cs) = _
        rw [layout_lineEnd hc hone, if_neg hn]
    · cases inComment with
      | true =>
        show _ ≤ deepest .comment n (c :: cs)
        refine Nat.le_of_eq ?_
        rw [deepest, if_pos hc]
      | false =>
        show _ ≤ deepest .code n (c :: cs)
        rcases hcases with rfl | rfl <;> exact Nat.le_refl _

section Between

variable {plain indent : List Char} (hindent : ∀ c ∈ indent, c = ' ')

variable (plain indent) in
/-- The first character is written as it is, unless it ends a line. -/
theorem layout_head (n : Nat) {c : Char} (hc : isLineEnd c = false) (u : List Char) :
    ∃ more, layout plain indent .code n (c :: u) = c :: more := by
  have hquote : ∀ {q : Char}, IsQuote q → ∃ more, layout plain indent .code n (q :: u) = q :: more := by
    intro q hq
    by_cases hu : ∃ more, u = q :: q :: more
    · obtain ⟨more, rfl⟩ := hu
      rcases hq with rfl | rfl <;> exact ⟨_, rfl⟩
    · exact ⟨_, (layout_quote plain indent hq fun more heq => hu ⟨more, heq⟩).1⟩
  by_cases hspecial : c ∈ ['\\', '\r', '\'', '"']
  · simp only [List.mem_cons, List.not_mem_nil, or_false] at hspecial
    rcases hspecial with rfl | rfl | rfl | rfl
    · cases u <;> exact ⟨_, rfl⟩
    · cases hc
    · exact hquote (Or.inl rfl)
    · exact hquote (Or.inr rfl)
  · rw [layout_code hspecial, hc, if_neg Bool.false_ne_true]
    split
    · exact ⟨_, rfl⟩
    split
    · exact ⟨_, rfl⟩
    split
    · exact ⟨_, rfl⟩
    split <;> exact ⟨_, rfl⟩

variable (plain indent) in
/-- A line end is written as a line end. -/
theorem exists_layout_lineEnd (n : Nat) {c : Char} (hc : isLineEnd c = true) (u : List Char) :
    ∃ found ∈ lineEnds, ∃ more, layout plain indent .code n (c :: u) = writtenLineEnd plain found ++ more := by
  by_cases htwo : ∃ more, c = '\r' ∧ u = '\n' :: more
  · obtain ⟨more, rfl, rfl⟩ := htwo
    exact ⟨['\r', '\n'], by decide, _, List.append_assoc _ _ _⟩
  · have hcases : c = '\r' ∨ c = '\n' := by simpa [isLineEnd, or_comm] using hc
    refine ⟨[c], by rcases hcases with rfl | rfl <;> decide, (if n = 0 then [] else indent) ++ layout plain indent .code n u, ?_⟩
    rw [layout_lineEnd hc fun more hreturn hmore => htwo ⟨more, hreturn, hmore⟩, List.append_assoc]

/-- What stands in front of a character in a piece is written so that reading, which drops it there, drops it in code too, and
comes to the rest of the piece. -/
def Clears (plain indent : List Char) (drop : List Char → List Char) (m : Mode) (n : Nat) (t : List Char) (c : Char)
    (x w : List Char) : Prop :=
  ∃ u, x = u ++ w ∧ deepest .code n (c :: u) ≤ deepest m n t ∧
    ∀ w', drop (layout plain indent m n t ++ w') = layout plain indent .code n (c :: u) ++ w'

section Clears

variable {drop drop' : List Char → List Char} {m m' : Mode} {n : Nat} {c : Char} {t t' x w : List Char}

/-- More may be dropped in front. -/
theorem Clears.behind (h : Clears plain indent drop' m' n t' c x w) (hdeep : deepest m' n t' ≤ deepest m n t)
    (hdrop : ∀ w', drop (layout plain indent m n t ++ w') = drop' (layout plain indent m' n t' ++ w')) :
    Clears plain indent drop m n t c x w := by
  obtain ⟨u, hu, hdeepest, hread⟩ := h
  exact ⟨u, hu, Nat.le_trans hdeepest hdeep, fun w' => (hdrop w').trans (hread w')⟩

/-- Nothing is dropped in front of a character at which reading stops. -/
theorem clears_stop (hstop : ∀ cs, drop (c :: cs) = c :: cs) (hend : isLineEnd c = false) :
    Clears plain indent drop .code n (c :: t) c (t ++ w) w := by
  refine ⟨t, rfl, Nat.le_refl _, fun w' => ?_⟩
  obtain ⟨more, hmore⟩ := layout_head plain indent n hend t
  rw [hmore]
  exact hstop _

theorem Clears.gap {d : Char} (hgap : isGap d = true) (hdrop : ∀ cs, drop (d :: cs) = drop cs)
    (h : Clears plain indent drop .code n t c x w) : Clears plain indent drop .code n (d :: t) c x w := by
  have hpasses : Passes plain indent .code n .code n [d] t := passes_plain (not_special_of_isGap hgap)
  refine h.behind hpasses.deepest_le fun w' => ?_
  show drop (layout plain indent .code n ([d] ++ t) ++ w') = _
  rw [hpasses.layout_eq, List.append_assoc]
  exact hdrop _

end Clears

include hindent

/-- What is left of a text behind blanks, line ends and comments within brackets. -/
theorem gaps_layout {n : Nat} (hn : n ≠ 0) {c : Char} (hc : c ≠ '\\') {w x : List Char} (hx : w.length ≤ x.length) (t : List Char)
    (inComment : Bool) (h : gaps inComment (t ++ w) = c :: x) :
    Clears plain indent (gaps inComment) (Mode.gap inComment) n t c x w := by
  induction hk : t.length using Nat.strongRecOn generalizing t inComment with
  | ind k ih =>
  cases t with
  | nil =>
    -- no text is left where the piece is used up
    have hle := length_gaps_le inComment w
    have h : gaps inComment w = c :: x := h
    rw [h, List.length_cons] at hle
    omega
  | cons d t =>
    rw [List.length_cons] at hk
    by_cases hend : isLineEnd d = true
    · obtain ⟨found, hfound, rest, heq, hlayout, hdeepest⟩ := exists_broken plain indent hn hend inComment t
      have hshort : rest.length < k := by
        have := congrArg List.length heq
        rw [List.length_cons, List.length_append] at this
        have := length_pos_of_lineEnds hfound
        omega
      rw [heq, List.append_assoc, gaps_lineEnd hfound] at h
      refine (ih _ hshort rest false h rfl).behind hdeepest fun w' => ?_
      rw [hlayout, List.append_assoc, gaps_broken hfound hindent]
      rfl
    have hend : isLineEnd d = false := Bool.eq_false_iff.2 hend
    cases inComment with
    | true =>
      rw [List.cons_append, gaps, hend] at h
      refine (ih _ (by omega) t true h rfl).behind ?_ fun w' => ?_
      · show _ ≤ deepest .comment n (d :: t)
        rw [deepest, hend]
        exact Nat.le_refl _
      · show gaps true (layout plain indent .comment n (d :: t) ++ w') = _
        rw [layout, hend, if_neg Bool.false_ne_true, List.cons_append, gaps, hend]
        · rfl
        · rintro _ rfl
          cases hend
    | false =>
      by_cases hslash : d = '\\'
      · subst hslash
        obtain ⟨e, rest, heq, he, hrest⟩ := gaps_backslash h hc
        cases t with
        | nil =>
          have hle := length_gaps_le false rest
          have hw : w.length = rest.length + 1 := congrArg List.length heq
          rw [hrest, List.length_cons] at hle
          omega
        | cons e' t =>
          obtain ⟨rfl, rfl⟩ := List.cons.inj heq
          refine (ih _ (by simp only [List.length_cons] at hk; omega) t false hrest rfl).behind (Nat.le_refl _) fun w' => ?_
          show gaps false ('\\' :: e' :: (layout plain indent .code n t ++ w')) = _
          rcases he with rfl | rfl
          · rfl
          · exact gaps_continued _
      by_cases hcomment : d = '#'
      · subst hcomment
        exact (ih _ (by omega) t true h rfl).behind (Nat.le_refl _) fun _ => rfl
      by_cases hgap : isGap d = true
      · rw [List.cons_append, gaps_gap hgap] at h
        exact (ih _ (by omega) t false h rfl).gap hgap (gaps_gap hgap)
      · have hstops : Stops d := by
          simp only [isGap, isLineEnd, Bool.or_eq_true, beq_iff_eq, not_or, Bool.or_eq_false_iff, beq_eq_false_iff_ne] at hgap hend
          simp [Stops, hslash, hcomment, hgap, hend]
        rw [List.cons_append, hstops.gaps_eq] at h
        obtain ⟨rfl, rfl⟩ := List.cons.inj h
        exact clears_stop hstops.gaps_eq hend

omit hindent

theorem blanks_of_not_gap {c : Char} (hgap : isGap c = false) (hslash : c ≠ '\\') (cs : List Char) : blanks (c :: cs) = c :: cs := by
  rw [blanks, hgap]
  · rfl
  all_goals
    intros
    contradiction

theorem writtenLineEnd_lineFeed (plain : List Char) : writtenLineEnd plain ['\n'] = ['\n'] := by
  unfold writtenLineEnd
  split <;> rfl

/-- The end of a line that a backslash continues: a carriage return alone has no line feed behind it. -/
def Continues (mark rest : List Char) : Prop := mark ∈ lineEnds ∧ rest ≠ [] ∧ (mark = ['\r'] → rest.head? ≠ some '\n')

section Continues

variable {mark rest : List Char} (h : Continues mark rest)

include h

theorem trivia_continued (inside : Bool) : trivia inside ('\\' :: mark ++ rest) = trivia inside rest := by
  obtain ⟨hmark, hrest, hlone⟩ := h
  obtain ⟨c, rest, rfl⟩ := List.exists_cons_of_ne_nil hrest
  simp only [lineEnds, List.mem_cons, List.not_mem_nil, or_false] at hmark
  cases inside with
  | true =>
    rcases hmark with rfl | rfl | rfl
    · rfl
    · exact gaps_continued _
    · rfl
  | false =>
    rcases hmark with rfl | rfl | rfl
    · rfl
    · have hc : c ≠ '\n' := fun heq => hlone rfl (by rw [heq]; rfl)
      show blanks ('\\' :: '\r' :: c :: rest) = blanks (c :: rest)
      rw [blanks, if_neg (by simpa using hc)]
      rintro _ _ rfl
      exact absurd rfl hc
    · rfl

/-- Outside brackets a continued line is written as it stands. -/
theorem layout_continued (plain indent cs : List Char) : layout plain indent .code 0 ('\\' :: mark ++ cs) =
    '\\' :: mark ++ layout plain indent .code 0 cs ∧ deepest .code 0 ('\\' :: mark ++ cs) = deepest .code 0 cs := by
  have hmark := h.1
  simp only [lineEnds, List.mem_cons, List.not_mem_nil, or_false] at hmark
  rcases hmark with rfl | rfl | rfl
  · refine ⟨?_, rfl⟩
    show '\\' :: '\r' :: (writtenLineEnd plain ['\n'] ++ [] ++ layout plain indent .code 0 cs) = _
    rw [writtenLineEnd_lineFeed]
    rfl
  · exact ⟨rfl, rfl⟩
  · exact ⟨rfl, rfl⟩

end Continues

/-- A backslash at the front continues a line, or nothing is dropped. -/
theorem blanks_backslash {c : Char} {cs more : List Char} (h : blanks ('\\' :: cs) = c :: more) (hc : c ≠ '\\') :
    ∃ mark rest, cs = mark ++ rest ∧ Continues mark rest := by
  have hkeep : blanks ('\\' :: cs) ≠ '\\' :: cs := fun heq => by
    rw [heq] at h
    exact hc (List.cons.inj h).1.symm
  obtain _ | ⟨e, rest⟩ := cs
  · exact absurd rfl hkeep
  by_cases hline : e = '\n'
  · subst hline
    refine ⟨['\n'], rest, rfl, by decide, ?_, fun h => by cases h⟩
    rintro rfl
    exact hkeep rfl
  by_cases hreturn : e = '\r'
  · subst hreturn
    obtain _ | ⟨d, rest⟩ := rest
    · exact absurd rfl hkeep
    by_cases hd : d = '\n'
    · subst hd
      refine ⟨['\r', '\n'], rest, rfl, by decide, ?_, fun h => by cases h⟩
      rintro rfl
      exact hkeep rfl
    · exact ⟨['\r'], d :: rest, rfl, by decide, List.cons_ne_nil _ _, fun _ heq => hd (Option.some.inj heq)⟩
  · refine absurd ?_ hkeep
    rw [blanks]
    · rfl
    all_goals
      intros
      simp_all

/-- A continued line of a piece is continued in code: something follows it there too, and no line feed, as behind a lone
carriage return no line ends. -/
theorem Continues.layout {mark t w x : List Char} {c : Char} {inside : Bool} (h : Continues mark (t ++ w)) (hc : Stops c)
    (hrest : blanks (t ++ w) = c :: x) (ht : t ≠ []) (hclears : Clears plain indent (trivia inside) .code 0 t c x w)
    (w' : List Char) : Continues mark (layout plain indent .code 0 t ++ w') := by
  obtain ⟨-, hcend, -, -⟩ := hc.ne
  refine ⟨h.1, fun hnil => ?_, fun hlone => ?_⟩
  · obtain ⟨u, -, -, hread⟩ := hclears
    obtain ⟨more, hmore⟩ := layout_head plain indent 0 hcend u
    have hread := hread w'
    rw [hnil, hmore] at hread
    cases inside <;> cases hread
  · obtain ⟨d, t, rfl⟩ := List.exists_cons_of_ne_nil ht
    have hfeed : d ≠ '\n' := fun heq => h.2.2 hlone (by rw [heq]; rfl)
    have hreturn : d ≠ '\r' := by
      rintro rfl
      rw [List.cons_append, blanks_of_not_gap rfl (by decide)] at hrest
      rw [← (List.cons.inj hrest).1] at hcend
      cases hcend
    obtain ⟨more, hmore⟩ := layout_head plain indent 0 (show isLineEnd d = false by simp [isLineEnd, hfeed, hreturn]) t
    rw [hmore]
    exact fun heq => hfeed (Option.some.inj heq)

/-- What is left of a text behind blanks and continued lines, inside brackets and outside. -/
theorem blanks_layout {c : Char} (hc : Stops c) {w x : List Char} (hx : w.length ≤ x.length) (inside : Bool) (t : List Char)
    (h : blanks (t ++ w) = c :: x) : Clears plain indent (trivia inside) .code 0 t c x w := by
  induction hk : t.length using Nat.strongRecOn generalizing t with
  | ind k ih =>
  obtain ⟨-, hcend, hcslash, -⟩ := hc.ne
  have hlength : ∀ cs, cs.length ≤ w.length → blanks cs ≠ c :: x := by
    intro cs hle heq
    have := (suffix_blanks cs).length_le
    rw [heq, List.length_cons] at this
    omega
  cases t with
  | nil => exact absurd h (hlength w (Nat.le_refl _))
  | cons d t =>
    rw [List.length_cons] at hk
    by_cases hslash : d = '\\'
    · subst hslash
      obtain ⟨mark, rest, heq, hcontinues⟩ := blanks_backslash h hcslash
      have heq : t ++ w = mark ++ rest := heq
      have hrest : blanks rest = c :: x := by
        rw [List.cons_append, heq] at h
        exact (trivia_continued hcontinues false).symm.trans h
      -- the end of the line belongs to the piece
      have hmark : mark.length ≤ t.length := by
        by_contra hlt
        refine hlength rest ?_ hrest
        have := congrArg List.length heq
        simp only [List.length_append] at this
        omega
      obtain ⟨t', rfl, rfl⟩ : ∃ t', t = mark ++ t' ∧ rest = t' ++ w := by
        obtain ⟨a, rfl, rfl⟩ | ⟨a, rfl, rfl⟩ := List.append_eq_append_iff.1 heq
        · rw [List.length_append] at hmark
          obtain rfl : a = [] := List.length_eq_zero_iff.1 (by omega)
          exact ⟨[], by simp, rfl⟩
        · exact ⟨a, rfl, rfl⟩
      have ht' : t' ≠ [] := by
        rintro rfl
        exact hlength w (Nat.le_refl _) hrest
      have hclears := ih _ (by rw [List.length_append] at hk; omega) t' hrest rfl
      obtain ⟨hlayout, hdeepest⟩ := layout_continued hcontinues plain indent t'
      refine hclears.behind (Nat.le_of_eq hdeepest.symm) fun w' => ?_
      rw [← List.cons_append, hlayout, List.append_assoc]
      exact trivia_continued (hcontinues.layout hc hrest ht' hclears w') inside
    by_cases hgap : isGap d = true
    · rw [List.cons_append, blanks_gap hgap] at h
      refine (ih _ (by omega) t h rfl).gap hgap fun cs => ?_
      cases inside
      · exact blanks_gap hgap cs
      · exact gaps_gap hgap cs
    · have hgap : isGap d = false := Bool.eq_false_iff.2 hgap
      rw [List.cons_append, blanks_of_not_gap hgap hslash] at h
      obtain ⟨rfl, rfl⟩ := List.cons.inj h
      exact clears_stop (hc.trivia_eq inside) hcend

end Between

end Amalgam.Source.Layout
