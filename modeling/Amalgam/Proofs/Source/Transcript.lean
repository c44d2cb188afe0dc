import Amalgam.Proofs.Source.Parts
import Amalgam.Proofs.Source.Spacing

/-!
# A literal that is put into code is read there as it was written
-/

namespace Amalgam.Source.Layout

open Literal

/-- A place in code that a literal is put into. -/
structure Site where
  /-- The line end that is written as a plain line feed, and the indentation behind line ends. -/
  plain : List Char
  indent : List Char
  /-- What follows the literal where it is written, and in the code. -/
  behind : List Char
  after : List Char
  /-- How many brackets of the code are open around the literal. -/
  brackets : Nat
  indent_eq : ∀ c ∈ indent, c = ' '
  after_ends : ∃ c more, trivia (decide (0 < brackets)) after = c :: more ∧ c ∈ [',', ')', '#', '\n', '\r']

namespace Site

variable (p : Site)

/-- Two texts that end alike, with some brackets open: where the literal is written and in the code. -/
def Alike (n : Nat) (s s' : List Char) : Prop :=
  ∃ t, s = t ++ p.behind ∧ s' = layout p.plain p.indent .code n t ++ p.after ∧
    (p.brackets = 0 ∨ deepest .code n t + p.brackets ≤ maxDepth)

variable {p} {n n' : Nat} {s s' : List Char}

/-- What is written as it stands is left behind in both texts. -/
theorem Alike.step {t x : List Char} (h : p.Alike n (t ++ x) s') (hx : p.behind.length ≤ x.length)
    (passes : ∀ u, x = u ++ p.behind → Passes p.plain p.indent .code n .code n' t u) : ∃ x', s' = t ++ x' ∧ p.Alike n' x x' := by
  obtain ⟨a, heq, rfl, hdeep⟩ := h
  obtain ⟨u, rfl, rfl⟩ : ∃ u, a = t ++ u ∧ x = u ++ p.behind := by
    obtain ⟨b, rfl, rfl⟩ | ⟨b, rfl, hb⟩ := List.append_eq_append_iff.1 heq
    · exact ⟨b, rfl, rfl⟩
    · rw [hb, List.length_append] at hx
      obtain rfl : b = [] := List.length_eq_zero_iff.1 (by omega)
      exact ⟨[], by simp, by simpa using hb.symm⟩
  have hpasses := passes u rfl
  refine ⟨layout p.plain p.indent .code n' u ++ p.after, ?_, u, rfl, rfl, ?_⟩
  · rw [hpasses.layout_eq, List.append_assoc]
  · have := hpasses.deepest_le
    exact hdeep.imp_right fun h => by omega

theorem Alike.eq_after (h : p.Alike n p.behind s') : s' = p.after := by
  obtain ⟨t, heq, rfl, -⟩ := h
  obtain rfl : t = [] := by simpa using heq
  rfl

theorem after_quiet (p : Site) : ∀ c ∈ p.after.head?, c ∈ quiet := by
  obtain ⟨c, more, htrivia, hc⟩ := p.after_ends
  intro d hd
  by_contra hquiet
  have hstops : Stops d := fun h => hquiet (by
    have hsub : [' ', '\t', '\x0c', '\\', '#', '\n', '\r'] ⊆ quiet := by decide
    exact hsub h)
  obtain ⟨rest, hrest⟩ := List.head?_eq_some_iff.1 hd
  rw [hrest, hstops.trivia_eq] at htrivia
  obtain ⟨rfl, -⟩ := List.cons.inj htrivia
  have hsub : [',', ')', '#', '\n', '\r'] ⊆ quiet := by decide
  exact hquiet (hsub hc)

/-- What the code goes on with begins like what the literal goes on with. -/
theorem Alike.follows (h : p.Alike n s s') : Follows s s' := by
  obtain ⟨t, rfl, rfl, -⟩ := h
  cases t with
  | nil => exact fun c hc => Or.inl (p.after_quiet c hc)
  | cons c t =>
    by_cases hend : isLineEnd c = true
    · obtain ⟨found, hfound, more, hmore⟩ := exists_layout_lineEnd p.plain p.indent n hend t
      have hmem := writtenLineEnd_mem p.plain hfound
      rw [hmore]
      generalize writtenLineEnd p.plain found = written at hmem
      simp only [lineEnds, List.mem_cons, List.not_mem_nil, or_false] at hmem
      rintro d hd
      refine Or.inl ?_
      rcases hmem with rfl | rfl | rfl <;>
        · cases hd
          decide
    · obtain ⟨more, hmore⟩ := layout_head p.plain p.indent n (Bool.eq_false_iff.2 hend) t
      rw [hmore]
      exact Follows.of_head_eq rfl

/-- The token behind blanks, line ends and comments is the same in the code. -/
theorem Alike.trivia (h : p.Alike n s s') {c : Char} {x : List Char} (hc : Stops c) (hs : trivia (decide (0 < n)) s = c :: x)
    (hx : p.behind.length ≤ x.length) :
    ∃ x', trivia (decide (0 < n + p.brackets)) s' = c :: x' ∧ p.Alike n (c :: x) (c :: x') := by
  obtain ⟨t, rfl, rfl, hdeep⟩ := h
  have hclears : Clears p.plain p.indent (Literal.trivia (decide (0 < n + p.brackets))) .code n t c x p.behind := by
    cases n with
    | zero =>
      rw [Nat.zero_add]
      exact blanks_layout hc hx _ t hs
    | succ n =>
      rw [show decide (0 < n + 1 + p.brackets) = true from decide_eq_true (by omega)]
      exact gaps_layout p.indent_eq (Nat.succ_ne_zero n) hc.ne.2.2.1 hx t false hs
  obtain ⟨u, rfl, hle, hread⟩ := hclears
  obtain ⟨more, hmore⟩ := layout_head p.plain p.indent n hc.ne.2.1 u
  refine ⟨more ++ p.after, (hread p.after).trans (by rw [hmore]; rfl), c :: u, rfl, by rw [hmore]; rfl, ?_⟩
  exact hdeep.imp_right fun h => by omega

theorem stops_of_closers : ∀ c ∈ closers, Stops c := by decide

variable (p) in
/-- A part ends here: with the literal, or in front of what follows a part. -/
def Ready (n : Nat) (r : List Char) : Prop :=
  (r = p.behind ∧ n = 0) ∨ ∃ c x, Literal.trivia (decide (0 < n)) r = c :: x ∧ c ∈ closers ∧ p.behind.length ≤ x.length

theorem Ready.length_le {r : List Char} (h : p.Ready n r) : p.behind.length ≤ r.length := by
  obtain ⟨rfl, -⟩ | ⟨c, x, hr, -, hx⟩ := h
  · exact Nat.le_refl _
  · have := length_trivia_le (decide (0 < n)) r
    rw [hr, List.length_cons] at this
    omega

/-- Where a part ends, the same character follows in the code, or the literal ends and one that ends it. -/
theorem Alike.ready (h : p.Alike n s s') (hs : p.Ready n s) : ∃ c x', Literal.trivia (decide (0 < n + p.brackets)) s' = c :: x' ∧
    ((∃ x, Literal.trivia (decide (0 < n)) s = c :: x ∧ c ∈ closers ∧ p.Alike n (c :: x) (c :: x')) ∨
      s = p.behind ∧ c ∈ [',', ')', '#', '\n', '\r']) := by
  obtain ⟨rfl, rfl⟩ | ⟨c, x, hr, hc, hx⟩ := hs
  · obtain ⟨c, more, htrivia, hc⟩ := p.after_ends
    refine ⟨c, more, ?_, Or.inr ⟨rfl, hc⟩⟩
    rw [h.eq_after, Nat.zero_add]
    exact htrivia
  · obtain ⟨x', hx', halike⟩ := h.trivia (stops_of_closers c hc) hr hx
    exact ⟨c, x', hx', Or.inl ⟨x, hr, hc, halike⟩⟩

theorem Alike.head {c : Char} {x : List Char} (h : p.Alike n (c :: x) s') (hc : isLineEnd c = false) (hx : p.behind.length ≤ x.length) :
    ∃ x', s' = c :: x' := by
  obtain ⟨t, heq, rfl, -⟩ := h
  cases t with
  | nil =>
    have := congrArg List.length heq
    simp only [List.nil_append, List.length_cons] at this
    omega
  | cons d t =>
    obtain ⟨rfl, -⟩ := List.cons.inj heq
    obtain ⟨more, hmore⟩ := layout_head p.plain p.indent n hc t
    exact ⟨more ++ p.after, by rw [hmore]; rfl⟩

/-! ## Tokens -/

theorem stops_of_opens {c : Char} (h : Opens c) : Stops c := fun hc => h (by
  have hsub : [' ', '\t', '\x0c', '\\', '#', '\n', '\r'] ⊆ [' ', '\t', '\x0c', '\\', '#', '\n', '\r', ')', ']', '}'] := by decide
  exact hsub hc)

/-- What follows a part begins no quoted text. -/
theorem startsQuoted_of_ender : ∀ c ∈ closers ++ [',', ')', '#', '\n', '\r'], ∀ cs, startsQuoted (c :: cs) = false := by
  have hall : ∀ c ∈ closers ++ [',', ')', '#', '\n', '\r'], c.isAlpha = false ∧ c ≠ '\'' ∧ c ≠ '"' := by decide
  intro c hc cs
  obtain ⟨halpha, hsingle, hdouble⟩ := hall c hc
  rcases cs with _ | ⟨a, _ | ⟨b, cs⟩⟩ <;> simp [startsQuoted, halpha, hsingle, hdouble]

/-- A quoted text is read in the code as well. -/
theorem Alike.quoted {v : Value} {r : List Char} (h : p.Alike n s s') (hread : quoted? s = some (v, r))
    (hr : p.behind.length ≤ r.length) :
    ∃ r', quoted? s' = some (v, r') ∧ p.Alike n r r' ∧ (startsQuoted s = true → startsQuoted s' = true) := by
  obtain ⟨t, rfl, -, hread, hstarts, hpasses⟩ := quoted?_spec p.plain p.indent hread
  obtain ⟨r', rfl, halike⟩ := h.step hr fun u hu => hpasses n u ⟨p.behind, hu.symm⟩
  exact ⟨r', hread r' halike.follows, halike, hstarts r'⟩

/-- Quoted texts in a row are read in the code as well. -/
theorem Alike.moreQuoted {fuel : Nat} {v w : Value} {r : List Char} (h : p.Alike n s s')
    (hread : moreQuoted? (decide (0 < n)) fuel v s = some (w, r)) (hr : p.Ready n r) {fuel' : Nat} (hfuel : s'.length < fuel') :
    ∃ r', moreQuoted? (decide (0 < n + p.brackets)) fuel' v s' = some (w, r') ∧ p.Alike n r r' := by
  induction fuel generalizing v s s' fuel' with
  | zero => cases hread
  | succ fuel ih =>
  obtain ⟨fuel', rfl⟩ := Nat.exists_eq_add_one_of_ne_zero (Nat.ne_of_gt (Nat.zero_lt_of_lt hfuel))
  rw [moreQuoted?] at hread
  dsimp only at hread
  split at hread
  · rename_i hstarts
    obtain ⟨⟨u, rest⟩, hu, hread⟩ := Option.bind_eq_some_iff.1 hread
    obtain ⟨joined, hjoined, hread⟩ := Option.bind_eq_some_iff.1 hread
    have hrest : p.behind.length ≤ rest.length := Nat.le_trans hr.length_le (suffix_moreQuoted hread).length_le
    have hlength : rest.length < (Literal.trivia (decide (0 < n)) s).length := (leaves_quoted hu).length_lt
    obtain ⟨c, x, hx⟩ := List.exists_cons_of_ne_nil (List.length_pos_iff.1 (Nat.zero_lt_of_lt hlength))
    rw [hx] at hu hstarts hlength
    obtain ⟨x', hx', halike⟩ := h.trivia (stops_of_opens (opens_of_not_nonTokens (not_nonTokens_of_startsQuoted hstarts))) hx (by
      rw [List.length_cons] at hlength
      omega)
    obtain ⟨rest', hu', halike', hstarts'⟩ := halike.quoted hu hrest
    have hshort : rest'.length < s'.length := by
      have hle := length_trivia_le (decide (0 < n + p.brackets)) s'
      rw [hx'] at hle
      exact Nat.lt_of_lt_of_le (leaves_quoted hu').length_lt hle
    obtain ⟨r', hread', hr'⟩ := ih halike' hread (show rest'.length < fuel' by omega)
    refine ⟨r', ?_, hr'⟩
    rw [moreQuoted?, hx']
    dsimp only
    rw [if_pos (hstarts' hstarts)]
    exact Option.bind_eq_some_iff.2 ⟨_, hu', Option.bind_eq_some_iff.2 ⟨_, hjoined, hread'⟩⟩
  · rename_i hstarts
    cases hread
    refine ⟨s', ?_, h⟩
    obtain ⟨c, x', hx', hcases⟩ := h.ready hr
    have hc : c ∈ closers ++ [',', ')', '#', '\n', '\r'] := by
      rcases hcases with ⟨x, -, hc, -⟩ | ⟨-, hc⟩
      · exact List.mem_append_left _ hc
      · exact List.mem_append_right _ hc
    rw [moreQuoted?, hx']
    dsimp only
    rw [startsQuoted_of_ender c hc, if_neg Bool.false_ne_true]

/-- A token is read in the code as well; behind the name of the empty set anything may follow. -/
theorem Alike.simple {part : Part} {r : List Char} (h : p.Alike n s s') (hread : simple? (decide (0 < n)) s = some (part, r))
    (hr : p.behind.length ≤ r.length) (hready : part = .setName ∨ p.Ready n r) :
    ∃ r', simple? (decide (0 < n + p.brackets)) s' = some (part, r') ∧ p.Alike n r r' := by
  rcases simple?_eq_some hread with ⟨rfl, rfl⟩ | ⟨hstarts, v, w, rest, hv, hw, rfl⟩ | hbare
  · have hpasses : ∀ u, r = u ++ p.behind → Passes p.plain p.indent .code n .code n ['.', '.', '.'] u := fun u _ =>
      passes_plains (by decide)
    obtain ⟨r', rfl, halike⟩ := Alike.step (t := ['.', '.', '.']) h hr hpasses
    exact ⟨r', rfl, halike⟩
  · have hready : p.Ready n r := hready.resolve_left fun h => by cases h
    obtain ⟨rest', hv', halike, hstarts'⟩ := h.quoted hv (Nat.le_trans hr (suffix_moreQuoted hw).length_le)
    obtain ⟨r', hw', halike'⟩ := halike.moreQuoted hw hready (Nat.lt_succ_self _)
    exact ⟨r', simple?_of_quoted (hstarts' hstarts) hv' hw', halike'⟩
  · obtain ⟨t, rfl, hplain, hlocal⟩ := isLocal_bare hbare
    obtain ⟨r', rfl, halike⟩ := h.step hr fun u _ => passes_plains hplain
    exact ⟨r', simple?_of_bare _ (hlocal r' halike.follows), halike⟩

end Site

end Amalgam.Source.Layout
