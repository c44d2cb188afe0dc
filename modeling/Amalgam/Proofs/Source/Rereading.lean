import Amalgam.Proofs.Source.Transcript

/-!
# A literal is read in code as it was written

Every reader of a part of a literal reads the same part where the literal is put into code (`Site.rereads`), as long as the code
leaves room for the brackets of the literal. So the expression of a field is read whole (`Site.Alike.expression`), and so is the
first item of an expression within a bracket of the code (`Site.Alike.item`).
-/

namespace Amalgam.Source.Layout

open Literal

namespace Site

variable {p : Site} {n n' : Nat} {s s' : List Char}

/-! ## Brackets and sums -/

/-- How many brackets are still allowed, where the literal is written and in the code. -/
structure Depths (p : Site) (n d e : Nat) : Prop where
  written : d + n = maxDepth
  code : e + n + p.brackets = maxDepth

variable {d e : Nat}

theorem Depths.inside_written (h : p.Depths n d e) : decide (d < maxDepth) = decide (0 < n) := by
  have := h.written
  exact decide_eq_decide.2 (by omega)

theorem Depths.inside_code (h : p.Depths n d e) : decide (e < maxDepth) = decide (0 < n + p.brackets) := by
  have := h.code
  exact decide_eq_decide.2 (by omega)

/-- Where a bracket may open in the literal, one may open in the code. -/
theorem Depths.open (h : p.Depths n (d + 1) e) (halike : p.Alike (n + 1) s s') : ∃ e', e = e' + 1 ∧ p.Depths (n + 1) d e' := by
  obtain ⟨hwritten, hcode⟩ := h
  obtain ⟨t, -, -, hdeep⟩ := halike
  have := le_deepest .code (n + 1) t
  exact ⟨e - 1, by omega, by omega, by omega⟩

/-- Within brackets the next token is the same in the code. -/
theorem Alike.gaps (h : p.Alike (n + 1) s s') {c : Char} {x : List Char} (hc : Stops c) (hs : Literal.gaps false s = c :: x)
    (hx : p.behind.length ≤ x.length) : ∃ x', Literal.gaps false s' = c :: x' ∧ p.Alike (n + 1) (c :: x) (c :: x') := by
  have hbrackets : decide (0 < n + 1 + p.brackets) = true := decide_eq_true (by omega)
  obtain ⟨x', hx', halike⟩ := h.trivia hc (by rwa [decide_eq_true (Nat.succ_pos n)]) hx
  rw [hbrackets] at hx'
  exact ⟨x', hx', halike⟩

theorem Alike.opened {c : Char} {x x' : List Char} (h : p.Alike n (c :: x) (c :: x')) (hc : c ∈ ['(', '[', '{'])
    (hx : p.behind.length ≤ x.length) : p.Alike (n + 1) x x' := by
  obtain ⟨y, hy, halike⟩ := h.step (t := [c]) hx fun _ _ => passes_open hc
  obtain ⟨-, rfl⟩ := List.cons.inj hy
  exact halike

theorem Alike.closed {c : Char} {x x' : List Char} (h : p.Alike (n + 1) (c :: x) (c :: x')) (hc : c ∈ [')', ']', '}'])
    (hx : p.behind.length ≤ x.length) : p.Alike n x x' := by
  obtain ⟨y, hy, halike⟩ := h.step (t := [c]) hx fun _ _ => passes_close hc
  obtain ⟨-, rfl⟩ := List.cons.inj hy
  exact halike

theorem Alike.passed {c : Char} {x x' : List Char} (h : p.Alike n (c :: x) (c :: x')) (hc : c ∉ special)
    (hx : p.behind.length ≤ x.length) : p.Alike n x x' := by
  obtain ⟨y, hy, halike⟩ := h.step (t := [c]) hx fun _ _ => passes_plain hc
  obtain ⟨-, rfl⟩ := List.cons.inj hy
  exact halike

/-- The empty call behind the name of the empty set is read in the code as well. -/
theorem Alike.called {part part' : Part} {r : List Char} (hd : p.Depths n d e) (h : p.Alike n s s')
    (hread : called? d part s = some (part', r)) (hr : p.Ready n r) :
    ∃ r', called? e part s' = some (part', r') ∧ p.Alike n r r' := by
  unfold called? at hread
  rw [hd.inside_written] at hread
  split at hread
  · rename_i rest htrivia
    split at hread
    · cases hread
    rename_i hpositive
    obtain ⟨d, rfl⟩ := Nat.exists_eq_add_one_of_ne_zero hpositive
    split at hread
    · rename_i more hgaps
      cases hread
      have hle := length_gaps_le false rest
      rw [hgaps, List.length_cons] at hle
      have hmore := hr.length_le
      obtain ⟨x, hx, hopen⟩ := h.trivia (by decide) htrivia (by omega)
      have hinside := hopen.opened (by decide) (by omega)
      obtain ⟨y, hy, hclose⟩ := hinside.gaps (by decide) hgaps hmore
      obtain ⟨e, rfl, -⟩ := hd.open hinside
      refine ⟨y, ?_, hclose.closed (by decide) hmore⟩
      unfold called?
      rw [hd.inside_code, hx]
      refine (if_neg e.succ_ne_zero).trans ?_
      rw [hy]
      rfl
    · cases hread
  · cases hread
    obtain ⟨c, x, hx, hcases⟩ := h.ready hr
    have hc : c ≠ '(' := by
      rintro rfl
      rcases hcases with ⟨-, -, hc, -⟩ | ⟨-, hc⟩
      · exact absurd hc (by decide)
      · exact absurd hc (by decide)
    refine ⟨s', ?_, h⟩
    unfold called?
    rw [hd.inside_code, hx]
    split
    · rename_i heq _
      exact absurd (List.cons.inj heq).1 hc
    · rfl

/-- Readers with some fuel read in the code what they read where the literal is written. -/
structure Rereads (p : Site) (fuel : Nat) : Prop where
  atom : ∀ {n d e : Nat} {s s' r : List Char} {part : Part}, p.Depths n d e → p.Alike n s s' → atom? fuel d s = some (part, r) →
    p.Ready n r → ∀ {fuel' : Nat}, 3 * s'.length + 1 ≤ fuel' → ∃ r', atom? fuel' e s' = some (part, r') ∧ p.Alike n r r'
  sum : ∀ {n d e : Nat} {s s' r : List Char} {part : Part}, p.Depths n d e → p.Alike n s s' → sum? fuel d s = some (part, r) →
    p.Ready n r → ∀ {fuel' : Nat}, 3 * s'.length + 2 ≤ fuel' → ∃ r', sum? fuel' e s' = some (part, r') ∧ p.Alike n r r'
  items : ∀ {n d e : Nat} {s s' r : List Char} {close : Char} {acc vs : List Value}, p.Depths (n + 1) d e → p.Alike (n + 1) s s' →
    close ∈ [')', ']', '}'] → items? fuel d close acc s = some (vs, r) → p.behind.length ≤ r.length →
    ∀ {fuel' : Nat}, 3 * s'.length + 3 ≤ fuel' → ∃ r', items? fuel' e close acc s' = some (vs, r') ∧ p.Alike n r r'
  entries : ∀ {n d e : Nat} {s s' r : List Char} {acc es : List (Value × Value)}, p.Depths (n + 1) d e → p.Alike (n + 1) s s' →
    entries? fuel d acc s = some (es, r) → p.behind.length ≤ r.length →
    ∀ {fuel' : Nat}, 3 * s'.length + 3 ≤ fuel' → ∃ r', entries? fuel' e acc s' = some (es, r') ∧ p.Alike n r r'

theorem ready_of_gaps {c : Char} {x r : List Char} (hr : Literal.gaps false r = c :: x) (hc : c ∈ closers)
    (hx : p.behind.length ≤ x.length) : p.Ready (n + 1) r := by
  refine Or.inr ⟨c, x, ?_, hc, hx⟩
  rw [decide_eq_true (Nat.succ_pos n)]
  exact hr

theorem Alike.opens {c : Char} {x : List Char} (h : p.Alike n (c :: x) s') (hc : Opens c) (hx : p.behind.length ≤ x.length) :
    ∃ x', s' = c :: x' := h.head (stops_of_opens hc).ne.2.1 hx

/-- Within brackets the literal and the code go on alike with a next token. -/
theorem Alike.skip (h : p.Alike (n + 1) s s') (hs : ∃ c x, Literal.gaps false s = c :: x ∧ Stops c)
    (hx : p.behind.length < (Literal.gaps false s).length) : p.Alike (n + 1) (Literal.gaps false s) (Literal.gaps false s') := by
  obtain ⟨c, x, hgaps, hc⟩ := hs
  rw [hgaps, List.length_cons] at hx
  obtain ⟨x', hx', halike⟩ := h.gaps hc hgaps (by omega)
  rw [hgaps, hx']
  exact halike

theorem stops_of_closing {c : Char} (h : c ∈ [')', ']', '}']) : Stops c := by
  have hall : ∀ c ∈ [')', ']', '}'], Stops c := by decide
  exact hall c h

theorem exists_stops_of_sum {fuel d : Nat} {cs r : List Char} {part : Part} (h : sum? fuel d cs = some (part, r)) :
    ∃ c x, cs = c :: x ∧ Stops c := by
  obtain ⟨c, x, rfl, hc⟩ := exists_opens_of_sum h
  exact ⟨c, x, rfl, stops_of_opens hc⟩

theorem exists_stops_of_items {fuel d : Nat} {close : Char} {acc vs : List Value} {cs r : List Char} (hclose : close ∈ [')', ']', '}'])
    (h : items? fuel d close acc cs = some (vs, r)) : ∃ c x, cs = c :: x ∧ Stops c := by
  cases fuel with
  | zero =>
    rw [items?] at h
    cases h
  | succ fuel =>
    cases cs with
    | nil =>
      rw [items?] at h
      cases h
    | cons c x =>
      rw [items?] at h
      split at h
      · rename_i hc
        rw [eq_of_beq hc]
        exact ⟨_, _, rfl, stops_of_closing hclose⟩
      · obtain ⟨y, hy, -⟩ := Option.bind_eq_some_iff.1 h
        exact exists_stops_of_sum hy

theorem exists_stops_of_round {fuel d : Nat} {cs r : List Char} {part : Part} (h : round? fuel d cs = some (part, r)) :
    ∃ c x, cs = c :: x ∧ Stops c := by
  unfold round? at h
  split at h
  · exact ⟨_, _, rfl, by decide⟩
  · obtain ⟨y, hy, -⟩ := Option.bind_eq_some_iff.1 h
    exact exists_stops_of_sum hy

theorem exists_stops_of_curly {fuel d : Nat} {cs r : List Char} {part : Part} (h : curly? fuel d cs = some (part, r)) :
    ∃ c x, cs = c :: x ∧ Stops c := by
  unfold curly? at h
  split at h
  · exact ⟨_, _, rfl, by decide⟩
  · obtain ⟨y, hy, -⟩ := Option.bind_eq_some_iff.1 h
    exact exists_stops_of_sum hy

theorem exists_closer_of_entries {fuel d : Nat} {acc es : List (Value × Value)} {cs r : List Char}
    (h : entries? fuel d acc cs = some (es, r)) : ∃ c x, cs = c :: x ∧ c ∈ closers ∧ r <:+ x := by
  obtain ⟨c, x, rfl, hr⟩ := (shrinks fuel).entries h
  refine ⟨c, x, rfl, ?_, hr⟩
  cases fuel with
  | zero =>
    rw [entries?] at h
    cases h
  | succ fuel =>
    rcases entries?_eq_some h with ⟨heq, -⟩ | ⟨rest, heq, -⟩ | ⟨rest, e, more, heq, -⟩
    all_goals
      rw [(List.cons.inj heq).1]
      decide

/-- A bracket opens in the code as well. -/
theorem Alike.bracket {c : Char} {x : List Char} (hd : p.Depths n (d + 1) e) (h : p.Alike n (c :: x) s') (hc : c ∈ ['(', '[', '{'])
    (hx : p.behind.length < (Literal.gaps false x).length) (hstops : ∃ c y, Literal.gaps false x = c :: y ∧ Stops c) :
    ∃ x' e', s' = c :: x' ∧ e = e' + 1 ∧ p.Depths (n + 1) d e' ∧
      p.Alike (n + 1) (Literal.gaps false x) (Literal.gaps false x') := by
  have hend : ∀ c ∈ ['(', '[', '{'], isLineEnd c = false := by decide
  have hle := length_gaps_le false x
  obtain ⟨x', rfl⟩ := h.head (hend c hc) (by omega)
  have hopened := h.opened hc (by omega)
  obtain ⟨e', rfl, hd'⟩ := hd.open hopened
  exact ⟨x', e', rfl, rfl, hd', hopened.skip hstops hx⟩

section Rereads

variable {fuel fuel' : Nat} {part : Part} {r : List Char} (ih : p.Rereads fuel)

include ih

/-- Within brackets a part behind a comma or a colon is read in the code as well. -/
theorem Rereads.sum_skip (hd : p.Depths (n + 1) d e) (h : p.Alike (n + 1) s s') (hread : sum? fuel d (Literal.gaps false s) = some (part, r))
    (hr : p.Ready (n + 1) r) (hfuel : 3 * s'.length + 2 ≤ fuel') :
    ∃ r', sum? fuel' e (Literal.gaps false s') = some (part, r') ∧ p.Alike (n + 1) r r' ∧ r'.length < s'.length := by
  have hlt : r.length < (Literal.gaps false s).length := ((shrinks fuel).sum hread).length_lt
  have hle := length_gaps_le false s'
  obtain ⟨r', hread', halike⟩ := ih.sum hd (h.skip (exists_stops_of_sum hread) (Nat.lt_of_le_of_lt hr.length_le hlt)) hread hr
    (show 3 * (Literal.gaps false s').length + 2 ≤ fuel' by omega)
  exact ⟨r', hread', halike, Nat.lt_of_lt_of_le ((shrinks fuel').sum hread').length_lt hle⟩

/-- The items behind a comma are read in the code as well. -/
theorem Rereads.items_skip {close : Char} {acc vs : List Value} (hd : p.Depths (n + 1) d e) (h : p.Alike (n + 1) s s')
    (hclose : close ∈ [')', ']', '}']) (hread : items? fuel d close acc (Literal.gaps false s) = some (vs, r))
    (hr : p.behind.length ≤ r.length) (hfuel : 3 * s'.length + 3 ≤ fuel') :
    ∃ r', items? fuel' e close acc (Literal.gaps false s') = some (vs, r') ∧ p.Alike n r r' := by
  have hlt : r.length < (Literal.gaps false s).length := ((shrinks fuel).items hread).length_lt
  have hle := length_gaps_le false s'
  exact ih.items hd (h.skip (exists_stops_of_items hclose hread) (Nat.lt_of_le_of_lt hr hlt)) hclose hread hr (by omega)

/-- The entries behind an entry are read in the code as well. -/
theorem Rereads.entries_skip {acc es : List (Value × Value)} (hd : p.Depths (n + 1) d e) (h : p.Alike (n + 1) s s')
    (hread : entries? fuel d acc (Literal.gaps false s) = some (es, r)) (hr : p.behind.length ≤ r.length)
    (hfuel : 3 * s'.length + 3 ≤ fuel') :
    ∃ r', entries? fuel' e acc (Literal.gaps false s') = some (es, r') ∧ p.Alike n r r' := by
  have hlt : r.length < (Literal.gaps false s).length := ((shrinks fuel).entries hread).length_lt
  obtain ⟨c, x, hgaps, hc, -⟩ := exists_closer_of_entries hread
  have hle := length_gaps_le false s'
  exact ih.entries hd (h.skip ⟨c, x, hgaps, stops_of_closers c hc⟩ (Nat.lt_of_le_of_lt hr hlt)) hread hr (by omega)

theorem Rereads.roundTail {first : Part} (hd : p.Depths (n + 1) d e) (h : p.Alike (n + 1) s s')
    (hread : roundTail? fuel d first (Literal.gaps false s) = some (part, r)) (hr : p.behind.length ≤ r.length)
    (hfuel : 3 * s'.length ≤ fuel') : ∃ r', roundTail? fuel' e first (Literal.gaps false s') = some (part, r') ∧ p.Alike n r r' := by
  generalize hg : Literal.gaps false s = g at hread
  have hle' := length_gaps_le false s'
  unfold roundTail? at hread
  split at hread
  · cases hread
    obtain ⟨x, hx, halike⟩ := h.gaps (by decide) hg hr
    rw [hx]
    exact ⟨x, rfl, halike.closed (by decide) hr⟩
  · rename_i rest
    obtain ⟨v, hv, hread⟩ := Option.bind_eq_some_iff.1 hread
    obtain ⟨⟨vs, r⟩, hvs, heq⟩ := Option.map_eq_some_iff.1 hread
    cases heq
    have hlt : r.length < (Literal.gaps false rest).length := ((shrinks fuel).items hvs).length_lt
    have hrest : p.behind.length ≤ rest.length := Nat.le_trans hr (Nat.le_of_lt (Nat.lt_of_lt_of_le hlt (length_gaps_le false rest)))
    obtain ⟨x, hx, halike⟩ := h.gaps (by decide) hg hrest
    rw [hx, List.length_cons] at hle'
    obtain ⟨r', hvs', halike'⟩ := ih.items_skip hd (halike.passed (by decide) hrest) (by decide) hvs hr
      (show 3 * x.length + 3 ≤ fuel' by omega)
    refine ⟨r', ?_, halike'⟩
    rw [hx]
    exact Option.bind_eq_some_iff.2 ⟨v, hv, Option.map_eq_some_iff.2 ⟨_, hvs', rfl⟩⟩
  · cases hread

theorem Rereads.round (hd : p.Depths (n + 1) d e) (h : p.Alike (n + 1) s s') (hread : round? fuel d s = some (part, r))
    (hr : p.behind.length ≤ r.length) (hfuel : 3 * s'.length + 2 ≤ fuel') :
    ∃ r', round? fuel' e s' = some (part, r') ∧ p.Alike n r r' := by
  unfold round? at hread
  split at hread
  · cases hread
    obtain ⟨x, rfl⟩ := h.head (by decide) hr
    exact ⟨x, rfl, h.closed (by decide) hr⟩
  · obtain ⟨⟨first, rest⟩, hfirst, hread⟩ := Option.bind_eq_some_iff.1 hread
    obtain ⟨c, more, hgaps, hc, hmore⟩ := (shrinks fuel).roundTail hread
    obtain ⟨rest', hfirst', halike⟩ := ih.sum hd h hfirst (ready_of_gaps hgaps hc (Nat.le_trans hr hmore.length_le)) hfuel
    have hshort : rest'.length < s'.length := ((shrinks fuel').sum hfirst').length_lt
    obtain ⟨r', hread', halike'⟩ := ih.roundTail hd halike hread hr (show 3 * rest'.length ≤ fuel' by omega)
    refine ⟨r', ?_, halike'⟩
    obtain ⟨c, x, rfl, hopens⟩ := exists_opens_of_sum hfirst'
    rw [round?_open fun _ heq => hopens (by rw [(List.cons.inj heq).1]; decide)]
    exact Option.bind_eq_some_iff.2 ⟨_, hfirst', hread'⟩

theorem Rereads.curlyTail {k : Value} (hd : p.Depths (n + 1) d e) (h : p.Alike (n + 1) s s')
    (hread : curlyTail? fuel d k (Literal.gaps false s) = some (part, r)) (hr : p.behind.length ≤ r.length)
    (hfuel : 3 * s'.length ≤ fuel') : ∃ r', curlyTail? fuel' e k (Literal.gaps false s') = some (part, r') ∧ p.Alike n r r' := by
  obtain ⟨c, x, hgaps, hc, hx⟩ := (shrinks fuel).curlyTail hread
  replace hx : p.behind.length ≤ x.length := Nat.le_trans hr hx.length_le
  obtain ⟨x', hgaps', halike⟩ := h.gaps (stops_of_closers c hc) hgaps hx
  have hle := length_gaps_le false s'
  rw [hgaps', List.length_cons] at hle
  rw [hgaps] at hread
  rw [hgaps']
  unfold curlyTail? at hread
  split at hread
  · rename_i heq
    cases heq
    obtain ⟨⟨second, more⟩, hsecond, hread⟩ := Option.bind_eq_some_iff.1 hread
    obtain ⟨v, hv, hread⟩ := Option.bind_eq_some_iff.1 hread
    obtain ⟨⟨es, r⟩, hes, hread⟩ := Option.bind_eq_some_iff.1 hread
    split at hread
    · rename_i hhashable
      cases hread
      obtain ⟨c, y, hmore, hc, hy⟩ := exists_closer_of_entries hes
      have hready : p.Ready (n + 1) more := ready_of_gaps hmore hc (Nat.le_trans hr hy.length_le)
      obtain ⟨more', hsecond', halike, hlt⟩ := ih.sum_skip hd (halike.passed (by decide) hx) hsecond hready
        (show 3 * x'.length + 2 ≤ fuel' by omega)
      obtain ⟨r', hes', halike⟩ := ih.entries_skip hd halike hes hr (show 3 * more'.length + 3 ≤ fuel' by omega)
      refine ⟨r', ?_, halike⟩
      refine Option.bind_eq_some_iff.2 ⟨_, hsecond', Option.bind_eq_some_iff.2 ⟨v, hv, Option.bind_eq_some_iff.2 ⟨_, hes', ?_⟩⟩⟩
      rw [if_pos hhashable]
    · cases hread
  · rename_i heq
    cases heq
    obtain ⟨⟨vs, r⟩, hvs, hread⟩ := Option.bind_eq_some_iff.1 hread
    split at hread
    · rename_i hhashable
      cases hread
      obtain ⟨r', hvs', halike⟩ := ih.items_skip hd (halike.passed (by decide) hx) (by decide) hvs hr
        (show 3 * x'.length + 3 ≤ fuel' by omega)
      refine ⟨r', Option.bind_eq_some_iff.2 ⟨_, hvs', ?_⟩, halike⟩
      rw [if_pos hhashable]
    · cases hread
  · rename_i heq
    cases heq
    split at hread
    · rename_i hhashable
      cases hread
      exact ⟨x', if_pos hhashable, halike.closed (by decide) hx⟩
    · cases hread
  · cases hread

theorem Rereads.curly (hd : p.Depths (n + 1) d e) (h : p.Alike (n + 1) s s') (hread : curly? fuel d s = some (part, r))
    (hr : p.behind.length ≤ r.length) (hfuel : 3 * s'.length + 2 ≤ fuel') :
    ∃ r', curly? fuel' e s' = some (part, r') ∧ p.Alike n r r' := by
  unfold curly? at hread
  split at hread
  · cases hread
    obtain ⟨x, rfl⟩ := h.head (by decide) hr
    exact ⟨x, rfl, h.closed (by decide) hr⟩
  · obtain ⟨⟨first, rest⟩, hfirst, hread⟩ := Option.bind_eq_some_iff.1 hread
    obtain ⟨k, hk, hread⟩ := Option.bind_eq_some_iff.1 hread
    obtain ⟨c, more, hgaps, hc, hmore⟩ := (shrinks fuel).curlyTail hread
    obtain ⟨rest', hfirst', halike⟩ := ih.sum hd h hfirst (ready_of_gaps hgaps hc (Nat.le_trans hr hmore.length_le)) hfuel
    have hshort : rest'.length < s'.length := ((shrinks fuel').sum hfirst').length_lt
    obtain ⟨r', hread', halike'⟩ := ih.curlyTail hd halike hread hr (show 3 * rest'.length ≤ fuel' by omega)
    refine ⟨r', ?_, halike'⟩
    obtain ⟨c, x, rfl, hopens⟩ := exists_opens_of_sum hfirst'
    rw [curly?_open fun _ heq => hopens (by rw [(List.cons.inj heq).1]; decide)]
    exact Option.bind_eq_some_iff.2 ⟨_, hfirst', Option.bind_eq_some_iff.2 ⟨k, hk, hread'⟩⟩

theorem Rereads.atom_succ (hd : p.Depths n d e) (h : p.Alike n s s') (hread : atom? (fuel + 1) d s = some (part, r))
    (hr : p.Ready n r) (hfuel : 3 * s'.length + 1 ≤ fuel') :
    ∃ r', atom? fuel' e s' = some (part, r') ∧ p.Alike n r r' := by
  obtain ⟨fuel', rfl⟩ := Nat.exists_eq_add_one_of_ne_zero (show fuel' ≠ 0 by omega)
  rcases bracket_or_token d s with htoken | ⟨d, rest, rfl, rfl | rfl | rfl⟩
  · rw [atom?_simple fuel d s htoken, hd.inside_written] at hread
    obtain ⟨⟨first, more⟩, hfirst, hread⟩ := Option.bind_eq_some_iff.1 hread
    have hready : first = .setName ∨ p.Ready n more := by
      refine or_iff_not_imp_left.2 fun hne => ?_
      rw [called?_of_ne hne] at hread
      cases hread
      exact hr
    have hlength : r.length ≤ more.length := (suffix_called hread).length_le
    obtain ⟨more', hfirst', halike⟩ := h.simple hfirst (Nat.le_trans hr.length_le hlength) hready
    obtain ⟨r', hread', halike'⟩ := halike.called hd hread hr
    refine ⟨r', ?_, halike'⟩
    obtain ⟨c, y, rfl, hc⟩ := exists_token_of_simple hfirst'
    have hsub : ['(', '[', '{'] ⊆ nonTokens := by decide
    rw [atom?_simple fuel' e _ (Or.inr (by rintro _ ⟨⟩; exact fun h => hc (hsub h))), hd.inside_code]
    exact Option.bind_eq_some_iff.2 ⟨_, hfirst', hread'⟩
  · rw [atom?_round] at hread
    obtain ⟨⟨first, more⟩, hfirst, hread⟩ := Option.bind_eq_some_iff.1 hread
    have hmore : p.behind.length ≤ more.length := Nat.le_trans hr.length_le (suffix_called hread).length_le
    obtain ⟨x', e, rfl, rfl, hd', halike⟩ := h.bracket hd (by decide)
      (Nat.lt_of_le_of_lt hmore ((shrinks fuel).round hfirst).length_lt) (exists_stops_of_round hfirst)
    have hle := length_gaps_le false x'
    rw [List.length_cons] at hfuel
    obtain ⟨more', hfirst', halike⟩ := ih.round hd' halike hfirst hmore (show 3 * (Literal.gaps false x').length + 2 ≤ fuel' by omega)
    obtain ⟨r', hread', halike⟩ := halike.called hd hread hr
    exact ⟨r', (atom?_round ..).trans (Option.bind_eq_some_iff.2 ⟨_, hfirst', hread'⟩), halike⟩
  · rw [atom?_square] at hread
    obtain ⟨⟨vs, more⟩, hvs, hread⟩ := Option.bind_eq_some_iff.1 hread
    have hmore : p.behind.length ≤ more.length := Nat.le_trans hr.length_le (suffix_called hread).length_le
    obtain ⟨x', e, rfl, rfl, hd', halike⟩ := h.bracket hd (by decide)
      (Nat.lt_of_le_of_lt hmore ((shrinks fuel).items hvs).length_lt) (exists_stops_of_items (by decide) hvs)
    have hle := length_gaps_le false x'
    rw [List.length_cons] at hfuel
    obtain ⟨more', hvs', halike⟩ := ih.items hd' halike (by decide) hvs hmore
      (show 3 * (Literal.gaps false x').length + 3 ≤ fuel' by omega)
    obtain ⟨r', hread', halike⟩ := halike.called hd hread hr
    exact ⟨r', (atom?_square ..).trans (Option.bind_eq_some_iff.2 ⟨_, hvs', hread'⟩), halike⟩
  · rw [atom?_curly] at hread
    obtain ⟨⟨first, more⟩, hfirst, hread⟩ := Option.bind_eq_some_iff.1 hread
    have hmore : p.behind.length ≤ more.length := Nat.le_trans hr.length_le (suffix_called hread).length_le
    obtain ⟨x', e, rfl, rfl, hd', halike⟩ := h.bracket hd (by decide)
      (Nat.lt_of_le_of_lt hmore ((shrinks fuel).curly hfirst).length_lt) (exists_stops_of_curly hfirst)
    have hle := length_gaps_le false x'
    rw [List.length_cons] at hfuel
    obtain ⟨more', hfirst', halike⟩ := ih.curly hd' halike hfirst hmore (show 3 * (Literal.gaps false x').length + 2 ≤ fuel' by omega)
    obtain ⟨r', hread', halike⟩ := halike.called hd hread hr
    exact ⟨r', (atom?_curly ..).trans (Option.bind_eq_some_iff.2 ⟨_, hfirst', hread'⟩), halike⟩

theorem Rereads.operand {v : Value} (hd : p.Depths n d e) (h : p.Alike n s s') (hread : operand? fuel d s = some (v, r))
    (hr : p.Ready n r) (hfuel : 3 * s'.length + 1 ≤ fuel') : ∃ r', operand? fuel' e s' = some (v, r') ∧ p.Alike n r r' := by
  obtain ⟨⟨part, rest⟩, hpart, hread⟩ := Option.bind_eq_some_iff.1 hread
  obtain ⟨w, rfl⟩ : ∃ w, part = .number w := by
    cases part <;> first | exact ⟨_, rfl⟩ | cases hread
  cases hread
  have hlt : rest.length < _ := ((shrinks fuel).atom hpart).length_lt
  obtain ⟨c, x, hs, hopens⟩ := exists_opens_of_atom hpart
  rw [hs, List.length_cons] at hlt
  rw [hd.inside_written] at hs
  have hle : p.behind.length ≤ rest.length := hr.length_le
  obtain ⟨x', hs', halike⟩ := h.trivia (stops_of_opens hopens) hs (show p.behind.length ≤ x.length by omega)
  rw [hd.inside_written, hs] at hpart
  have hshort := length_trivia_le (decide (0 < n + p.brackets)) s'
  rw [hs'] at hshort
  obtain ⟨r', hread', halike'⟩ := ih.atom hd halike hpart hr (show 3 * (c :: x').length + 1 ≤ fuel' by omega)
  refine ⟨r', ?_, halike'⟩
  unfold operand?
  rw [hd.inside_code, hs', hread']
  rfl

theorem Rereads.signed (hd : p.Depths n d e) (h : p.Alike n s s') (hread : signed? fuel d s = some (part, r)) (hr : p.Ready n r)
    (hfuel : 3 * s'.length + 1 ≤ fuel') : ∃ r', signed? fuel' e s' = some (part, r') ∧ p.Alike n r r' := by
  unfold signed? at hread
  split at hread
  · rename_i rest
    obtain ⟨⟨v, r⟩, hv, heq⟩ := Option.map_eq_some_iff.1 hread
    cases heq
    have hrest : p.behind.length ≤ rest.length := Nat.le_trans hr.length_le (Nat.le_of_lt ((shrinks fuel).operand hv).length_lt)
    obtain ⟨x, rfl⟩ := h.head (by decide) hrest
    rw [List.length_cons] at hfuel
    obtain ⟨r', hv', halike⟩ := ih.operand hd (h.passed (by decide) hrest) hv hr (show 3 * x.length + 1 ≤ fuel' by omega)
    exact ⟨r', Option.map_eq_some_iff.2 ⟨_, hv', rfl⟩, halike⟩
  · rename_i rest
    obtain ⟨⟨v, r⟩, hv, heq⟩ := Option.map_eq_some_iff.1 hread
    cases heq
    have hrest : p.behind.length ≤ rest.length := Nat.le_trans hr.length_le (Nat.le_of_lt ((shrinks fuel).operand hv).length_lt)
    obtain ⟨x, rfl⟩ := h.head (by decide) hrest
    rw [List.length_cons] at hfuel
    obtain ⟨r', hv', halike⟩ := ih.operand hd (h.passed (by decide) hrest) hv hr (show 3 * x.length + 1 ≤ fuel' by omega)
    exact ⟨r', Option.map_eq_some_iff.2 ⟨_, hv', rfl⟩, halike⟩
  · rename_i hminus hplus
    obtain ⟨r', hread', halike⟩ := ih.atom hd h hread hr hfuel
    refine ⟨r', ?_, halike⟩
    have hlt := ((shrinks fuel).atom hread).length_lt
    obtain ⟨c, x, rfl, hopens⟩ := exists_opens_of_atom hread
    obtain ⟨x', rfl⟩ := h.opens hopens (Nat.le_trans hr.length_le (Nat.le_of_lt_succ hlt))
    rw [signed?_of_ne (fun _ heq => hminus _ (by rw [(List.cons.inj heq).1])) fun _ heq => hplus _ (by rw [(List.cons.inj heq).1])]
    exact hread'

theorem Rereads.addend {minus : Bool} {left : Part} (hd : p.Depths n d e) (h : p.Alike n s s')
    (hread : addend? fuel d minus left s = some (part, r)) (hr : p.Ready n r) (hfuel : 3 * s'.length + 1 ≤ fuel') :
    ∃ r', addend? fuel' e minus left s' = some (part, r') ∧ p.Alike n r r' := by
  obtain ⟨v, hv, hread⟩ := Option.bind_eq_some_iff.1 hread
  obtain ⟨⟨w, rest⟩, hw, hread⟩ := Option.bind_eq_some_iff.1 hread
  obtain ⟨u, hu, heq⟩ := Option.map_eq_some_iff.1 hread
  cases heq
  obtain ⟨r', hw', halike⟩ := ih.operand hd h hw hr hfuel
  exact ⟨r', Option.bind_eq_some_iff.2 ⟨v, hv, Option.bind_eq_some_iff.2 ⟨_, hw', Option.map_eq_some_iff.2 ⟨u, hu, rfl⟩⟩⟩, halike⟩

theorem Rereads.added {left : Part} (hd : p.Depths n d e) (h : p.Alike n s s')
    (hread : added? fuel d left s = some (part, r)) (hr : p.Ready n r) (hfuel : 3 * s'.length + 1 ≤ fuel') :
    ∃ r', added? fuel' e left s' = some (part, r') ∧ p.Alike n r r' := by
  have hle := length_trivia_le (decide (0 < n + p.brackets)) s'
  unfold added? at hread
  rw [hd.inside_written] at hread
  split at hread
  · rename_i more htrivia
    have hmore : p.behind.length ≤ more.length := Nat.le_trans hr.length_le (Nat.le_of_lt ((shrinks fuel).addend hread).length_lt)
    obtain ⟨x, hx, halike⟩ := h.trivia (by decide) htrivia hmore
    rw [hx, List.length_cons] at hle
    obtain ⟨r', hread', halike⟩ := ih.addend hd (halike.passed (by decide) hmore) hread hr (show 3 * x.length + 1 ≤ fuel' by omega)
    refine ⟨r', ?_, halike⟩
    unfold added?
    rw [hd.inside_code, hx]
    exact hread'
  · rename_i more htrivia
    have hmore : p.behind.length ≤ more.length := Nat.le_trans hr.length_le (Nat.le_of_lt ((shrinks fuel).addend hread).length_lt)
    obtain ⟨x, hx, halike⟩ := h.trivia (by decide) htrivia hmore
    rw [hx, List.length_cons] at hle
    obtain ⟨r', hread', halike⟩ := ih.addend hd (halike.passed (by decide) hmore) hread hr (show 3 * x.length + 1 ≤ fuel' by omega)
    refine ⟨r', ?_, halike⟩
    unfold added?
    rw [hd.inside_code, hx]
    exact hread'
  · rename_i hplus hminus
    cases hread
    obtain ⟨c, x, hx, hcases⟩ := h.ready hr
    have hc : c ≠ '+' ∧ c ≠ '-' := by
      rcases hcases with ⟨y, hy, -, -⟩ | ⟨-, hc⟩
      · refine ⟨?_, ?_⟩
        · rintro rfl
          exact hplus _ hy
        · rintro rfl
          exact hminus _ hy
      · have hall : ∀ c ∈ [',', ')', '#', '\n', '\r'], c ≠ '+' ∧ c ≠ '-' := by decide
        exact hall c hc
    refine ⟨s', ?_, h⟩
    unfold added?
    rw [hd.inside_code, hx]
    split
    · rename_i heq
      exact absurd (List.cons.inj heq).1 hc.1
    · rename_i heq
      exact absurd (List.cons.inj heq).1 hc.2
    · rfl

omit ih in
/-- The first term of a sum ends in front of a sign or with the sum. -/
theorem ready_of_added {left : Part} (hd : p.Depths n d e) (hread : added? fuel d left s = some (part, r)) (hr : p.Ready n r) :
    p.Ready n s := by
  unfold added? at hread
  rw [hd.inside_written] at hread
  split at hread
  · rename_i more htrivia
    exact Or.inr ⟨_, more, htrivia, by decide, Nat.le_trans hr.length_le (Nat.le_of_lt ((shrinks fuel).addend hread).length_lt)⟩
  · rename_i more htrivia
    exact Or.inr ⟨_, more, htrivia, by decide, Nat.le_trans hr.length_le (Nat.le_of_lt ((shrinks fuel).addend hread).length_lt)⟩
  · cases hread
    exact hr

theorem Rereads.sum_succ (hd : p.Depths n d e) (h : p.Alike n s s') (hread : sum? (fuel + 1) d s = some (part, r))
    (hr : p.Ready n r) (hfuel : 3 * s'.length + 2 ≤ fuel') : ∃ r', sum? fuel' e s' = some (part, r') ∧ p.Alike n r r' := by
  obtain ⟨fuel', rfl⟩ := Nat.exists_eq_add_one_of_ne_zero (show fuel' ≠ 0 by omega)
  rw [sum?_succ] at hread
  obtain ⟨⟨left, rest⟩, hleft, hread⟩ := Option.bind_eq_some_iff.1 hread
  obtain ⟨rest', hleft', halike⟩ := ih.signed hd h hleft (ready_of_added hd hread hr) (show 3 * s'.length + 1 ≤ fuel' by omega)
  have hlt : rest'.length < s'.length := ((shrinks fuel').signed hleft').length_lt
  obtain ⟨r', hread', halike'⟩ := ih.added hd halike hread hr (show 3 * rest'.length + 1 ≤ fuel' by omega)
  exact ⟨r', (sum?_succ ..).trans (Option.bind_eq_some_iff.2 ⟨_, hleft', hread'⟩), halike'⟩

theorem Rereads.itemsTail {close : Char} {acc vs : List Value} (hd : p.Depths (n + 1) d e) (h : p.Alike (n + 1) s s')
    (hclose : close ∈ [')', ']', '}']) (hread : itemsTail? fuel d close acc (Literal.gaps false s) = some (vs, r))
    (hr : p.behind.length ≤ r.length) (hfuel : 3 * s'.length ≤ fuel') :
    ∃ r', itemsTail? fuel' e close acc (Literal.gaps false s') = some (vs, r') ∧ p.Alike n r r' := by
  have hclosers : [')', ']', '}'] ⊆ closers := by decide
  obtain ⟨c, x, hgaps, hc, hx⟩ := (shrinks fuel).itemsTail hread
  replace hx : p.behind.length ≤ x.length := Nat.le_trans hr hx.length_le
  have hcloser : c ∈ closers := by
    rcases hc with rfl | rfl
    · decide
    · exact hclosers hclose
  obtain ⟨x', hgaps', halike⟩ := h.gaps (stops_of_closers c hcloser) hgaps hx
  have hle := length_gaps_le false s'
  rw [hgaps', List.length_cons] at hle
  rw [hgaps] at hread
  rw [hgaps']
  unfold itemsTail? at hread
  split at hread
  · rename_i heq
    cases heq
    exact ih.items_skip hd (halike.passed (by decide) hx) hclose hread hr (by omega)
  · rename_i hcomma heq
    cases heq
    split at hread
    · rename_i heq
      cases hread
      obtain rfl := eq_of_beq heq
      refine ⟨x', ?_, halike.closed hclose hr⟩
      unfold itemsTail?
      split
      · rename_i hcons
        exact (hcomma (List.cons.inj hcons).1).elim
      · rename_i hcons
        cases hcons
        rw [if_pos heq]
      · rename_i hcons
        cases hcons
    · cases hread
  · cases hread

theorem Rereads.items_succ {close : Char} {acc vs : List Value} (hd : p.Depths (n + 1) d e) (h : p.Alike (n + 1) s s')
    (hclose : close ∈ [')', ']', '}']) (hread : items? (fuel + 1) d close acc s = some (vs, r)) (hr : p.behind.length ≤ r.length)
    (hfuel : 3 * s'.length + 3 ≤ fuel') : ∃ r', items? fuel' e close acc s' = some (vs, r') ∧ p.Alike n r r' := by
  obtain ⟨fuel', rfl⟩ := Nat.exists_eq_add_one_of_ne_zero (show fuel' ≠ 0 by omega)
  obtain ⟨c, x, rfl, hc⟩ := exists_stops_of_items hclose hread
  have hlt := ((shrinks (fuel + 1)).items hread).length_lt
  obtain ⟨x', rfl⟩ := h.head hc.ne.2.1 (Nat.le_trans hr (Nat.le_of_lt_succ hlt))
  rw [items?_cons] at hread
  split at hread
  · rename_i heq
    cases hread
    obtain rfl := eq_of_beq heq
    refine ⟨x', ?_, h.closed hclose hr⟩
    rw [items?_cons, if_pos heq]
  · rename_i hne
    obtain ⟨⟨first, rest⟩, hfirst, hread⟩ := Option.bind_eq_some_iff.1 hread
    obtain ⟨v, hv, hread⟩ := Option.bind_eq_some_iff.1 hread
    obtain ⟨b, y, hgaps, hb, hy⟩ := (shrinks fuel).itemsTail hread
    have hclosers : [')', ']', '}'] ⊆ closers := by decide
    have hready : p.Ready (n + 1) rest := by
      refine ready_of_gaps hgaps ?_ (Nat.le_trans hr hy.length_le)
      rcases hb with rfl | rfl
      · decide
      · exact hclosers hclose
    obtain ⟨rest', hfirst', halike⟩ := ih.sum hd h hfirst hready (show 3 * (c :: x').length + 2 ≤ fuel' by omega)
    have hshort : rest'.length < (c :: x').length := ((shrinks fuel').sum hfirst').length_lt
    obtain ⟨r', hread', halike'⟩ := ih.itemsTail hd halike hclose hread hr (show 3 * rest'.length ≤ fuel' by omega)
    refine ⟨r', ?_, halike'⟩
    rw [items?_cons, if_neg hne]
    exact Option.bind_eq_some_iff.2 ⟨_, hfirst', Option.bind_eq_some_iff.2 ⟨v, hv, hread'⟩⟩

theorem Rereads.pair {k : Value} {entry : Value × Value} (hd : p.Depths (n + 1) d e) (h : p.Alike (n + 1) s s')
    (hread : pair? fuel d k (Literal.gaps false s) = some (entry, r)) (hr : p.Ready (n + 1) r) (hfuel : 3 * s'.length ≤ fuel') :
    ∃ r', pair? fuel' e k (Literal.gaps false s') = some (entry, r') ∧ p.Alike (n + 1) r r' ∧ r'.length < s'.length := by
  generalize hgaps : Literal.gaps false s = g at hread
  unfold pair? at hread
  split at hread
  · rename_i x
    obtain ⟨⟨second, r⟩, hsecond, hread⟩ := Option.bind_eq_some_iff.1 hread
    obtain ⟨v, hv, heq⟩ := Option.map_eq_some_iff.1 hread
    cases heq
    have hlt : r.length < (Literal.gaps false x).length := ((shrinks fuel).sum hsecond).length_lt
    have hx : p.behind.length ≤ x.length :=
      Nat.le_trans hr.length_le (Nat.le_of_lt (Nat.lt_of_lt_of_le hlt (length_gaps_le false x)))
    obtain ⟨x', hgaps', halike⟩ := h.gaps (by decide) hgaps hx
    have hle := length_gaps_le false s'
    rw [hgaps', List.length_cons] at hle
    obtain ⟨r', hsecond', halike, hshort⟩ := ih.sum_skip hd (halike.passed (by decide) hx) hsecond hr
      (show 3 * x'.length + 2 ≤ fuel' by omega)
    refine ⟨r', ?_, halike, by omega⟩
    rw [hgaps']
    exact Option.bind_eq_some_iff.2 ⟨_, hsecond', Option.map_eq_some_iff.2 ⟨v, hv, rfl⟩⟩
  · cases hread

theorem Rereads.entry_skip {entry : Value × Value} (hd : p.Depths (n + 1) d e) (h : p.Alike (n + 1) s s')
    (hread : keyed? fuel d (Literal.gaps false s) = some (entry, r)) (hr : p.Ready (n + 1) r) (hfuel : 3 * s'.length + 2 ≤ fuel') :
    ∃ r', keyed? fuel' e (Literal.gaps false s') = some (entry, r') ∧ p.Alike (n + 1) r r' ∧ r'.length < s'.length := by
  obtain ⟨⟨first, rest⟩, hfirst, hread⟩ := Option.bind_eq_some_iff.1 hread
  obtain ⟨k, hk, hread⟩ := Option.bind_eq_some_iff.1 hread
  obtain ⟨more, hgaps, hmore⟩ := (shrinks fuel).pair hread
  have hready : p.Ready (n + 1) rest := ready_of_gaps hgaps (by decide) (Nat.le_trans hr.length_le hmore.length_le)
  obtain ⟨rest', hfirst', halike, hlt⟩ := ih.sum_skip hd h hfirst hready hfuel
  obtain ⟨r', hread', halike, hlt'⟩ := ih.pair hd halike hread hr (show 3 * rest'.length ≤ fuel' by omega)
  refine ⟨r', ?_, halike, Nat.lt_trans hlt' hlt⟩
  exact Option.bind_eq_some_iff.2 ⟨_, hfirst', Option.bind_eq_some_iff.2 ⟨k, hk, hread'⟩⟩

theorem Rereads.entries_succ {acc es : List (Value × Value)} (hd : p.Depths (n + 1) d e) (h : p.Alike (n + 1) s s')
    (hread : entries? (fuel + 1) d acc s = some (es, r)) (hr : p.behind.length ≤ r.length)
    (hfuel : 3 * s'.length + 3 ≤ fuel') : ∃ r', entries? fuel' e acc s' = some (es, r') ∧ p.Alike n r r' := by
  obtain ⟨fuel', rfl⟩ := Nat.exists_eq_add_one_of_ne_zero (show fuel' ≠ 0 by omega)
  rcases entries?_eq_some hread with ⟨rfl, rfl⟩ | ⟨rest, rfl, hgaps, rfl⟩ | ⟨rest, entry, more, rfl, hentry, hread⟩
  · obtain ⟨x, rfl⟩ := h.head (by decide) hr
    exact ⟨x, entries?_closed, h.closed (by decide) hr⟩
  · have hle := length_gaps_le false rest
    rw [hgaps, List.length_cons] at hle
    have hrest : p.behind.length ≤ rest.length := by omega
    obtain ⟨x, rfl⟩ := h.head (by decide) hrest
    obtain ⟨y, hy, halike⟩ := (h.passed (by decide) hrest).gaps (by decide) hgaps hr
    exact ⟨y, entries?_comma hy, halike.closed (by decide) hr⟩
  · obtain ⟨c, y, hmore, hc, hy⟩ := exists_closer_of_entries hread
    have hready : p.Ready (n + 1) more := ready_of_gaps hmore hc (Nat.le_trans hr hy.length_le)
    have hrest : p.behind.length ≤ rest.length :=
      Nat.le_trans hready.length_le (Nat.le_of_lt (Nat.lt_of_lt_of_le ((shrinks fuel).entry hentry).length_lt (length_gaps_le false rest)))
    obtain ⟨x, rfl⟩ := h.head (by decide) hrest
    rw [List.length_cons] at hfuel
    obtain ⟨more', hentry', halike, hlt⟩ := ih.entry_skip hd (h.passed (by decide) hrest) hentry hready
      (show 3 * x.length + 2 ≤ fuel' by omega)
    obtain ⟨r', hread', halike⟩ := ih.entries_skip hd halike hread hr (show 3 * more'.length + 3 ≤ fuel' by omega)
    refine ⟨r', ?_, halike⟩
    rw [entries?_more]
    · exact Option.bind_eq_some_iff.2 ⟨_, hentry', hread'⟩
    · intro rest heq
      obtain ⟨z, hz, -⟩ := Option.bind_eq_some_iff.1 hentry'
      obtain ⟨c, w, hcons, hopens⟩ := exists_opens_of_sum hz
      rw [heq] at hcons
      exact hopens (by rw [← (List.cons.inj hcons).1]; decide)

end Rereads

theorem rereads (p : Site) (fuel : Nat) : p.Rereads fuel := by
  induction fuel with
  | zero =>
    refine ⟨fun _ _ h => ?_, fun _ _ h => ?_, fun _ _ _ h => ?_, fun _ _ h => ?_⟩
    · rw [atom?] at h
      cases h
    · rw [sum?] at h
      cases h
    · rw [items?] at h
      cases h
    · rw [entries?] at h
      cases h
  | succ fuel ih =>
    exact ⟨fun hd h hread hr _ => ih.atom_succ hd h hread hr, fun hd h hread hr _ => ih.sum_succ hd h hread hr,
      fun hd h hclose hread hr _ => ih.items_succ hd h hclose hread hr, fun hd h hread hr _ => ih.entries_succ hd h hread hr⟩



/-! ## Expressions -/

section Whole

variable (hopen : p.brackets = 0)

include hopen

/-- Outside brackets the next token is the same in the code. -/
theorem Alike.blanks (h : p.Alike 0 s s') {c : Char} {x : List Char} (hc : Stops c) (hs : Literal.blanks s = c :: x)
    (hx : p.behind.length ≤ x.length) : ∃ x', Literal.blanks s' = c :: x' ∧ p.Alike 0 (c :: x) (c :: x') := by
  obtain ⟨x', hx', halike⟩ := h.trivia hc hs hx
  rw [hopen] at hx'
  exact ⟨x', hx', halike⟩

theorem Alike.comma (h : p.Alike 0 s s') {x : List Char} (hs : Literal.blanks s = ',' :: x) (hx : p.behind.length ≤ x.length) :
    ∃ x', Literal.blanks s' = ',' :: x' ∧ p.Alike 0 x x' := by
  obtain ⟨x', hx', halike⟩ := h.blanks hopen (by decide) hs hx
  exact ⟨x', hx', halike.passed (by decide) hx⟩

theorem depths_whole : p.Depths 0 maxDepth maxDepth := ⟨rfl, by rw [hopen]; rfl⟩

variable (hcomma : ∀ more, Literal.blanks p.after ≠ ',' :: more)

include hcomma

/-- No part begins where the code goes on. -/
theorem sum?_after (fuel depth : Nat) : sum? fuel depth (Literal.blanks p.after) = none := by
  obtain ⟨c, more, hafter, hc⟩ := p.after_ends
  rw [hopen] at hafter
  have hcloses : ∀ c ∈ [',', ')', '#', '\n', '\r'], c = ',' ∨ ¬Opens c := by decide
  refine Option.eq_none_iff_forall_ne_some.2 fun x hx => ?_
  obtain ⟨d, y, heq, hopens⟩ := exists_opens_of_sum hx
  obtain rfl : c = d := (List.cons.inj (hafter.symm.trans heq)).1
  rcases hcloses c hc with rfl | hno
  · exact hcomma _ heq
  · exact hno hopens

/-- The items of a tuple without brackets are read in the code as well; a comma behind the last one needs the end of its line. -/
theorem Alike.openTuple {fuel fuel' : Nat} {acc vs : List Value} (h : p.Alike 0 s s')
    (hread : openTuple? fuel acc s = some (vs, p.behind)) (hfuel : s'.length < fuel') :
    openTuple? fuel' acc s' = some (vs, p.after) ∨ openTuple? fuel' acc s' = none ∧ ¬EndsLine p.after := by
  induction fuel generalizing acc s s' fuel' with
  | zero => cases hread
  | succ fuel ih =>
    obtain ⟨fuel', rfl⟩ := Nat.exists_eq_add_one_of_ne_zero (show fuel' ≠ 0 by omega)
    by_cases hline : EndsLine s
    · rw [openTuple?_ends hline] at hread
      cases hread
      rw [h.eq_after]
      by_cases hends : EndsLine p.after
      · exact Or.inl (openTuple?_ends hends fuel' acc)
      · refine Or.inr ⟨?_, hends⟩
        rw [openTuple?_item hends, sum?_after hopen hcomma]
        rfl
    rw [openTuple?_item hline] at hread
    obtain ⟨⟨part, rest⟩, hpart, hread⟩ := Option.bind_eq_some_iff.1 hread
    obtain ⟨v, hv, hread⟩ := Option.bind_eq_some_iff.1 hread
    obtain ⟨c, x, hx, hopens⟩ := exists_opens_of_sum hpart
    have hlt : rest.length < _ := ((shrinks _).sum hpart).length_lt
    have hle : p.behind.length ≤ rest.length := (suffix_openTail suffix_openTuple hread).length_le
    rw [hx, List.length_cons] at hlt
    obtain ⟨x', hx', halike⟩ := h.blanks hopen (stops_of_opens hopens) hx (by omega)
    have hline' : ¬EndsLine s' := fun hline' => by
      obtain ⟨-, hend, -, hcomment⟩ := (stops_of_opens hopens).ne
      rcases hline' c (by rw [hx']; rfl) with hc | hc
      · exact hcomment hc
      · rw [hend] at hc
        cases hc
    have hshort := (suffix_blanks s').length_le
    rw [hx] at hpart
    rw [hx'] at hshort
    rw [openTuple?_item hline', hx']
    -- a comma and more items, or the end
    by_cases hmore : ∃ more, Literal.blanks rest = ',' :: more
    · obtain ⟨more, hmore⟩ := hmore
      rw [openTail?_comma hmore] at hread
      have hbehind : p.behind.length ≤ more.length := (suffix_openTuple hread).length_le
      obtain ⟨rest', hpart', halike⟩ := (p.rereads _).sum (depths_whole hopen) halike hpart
        (Or.inr ⟨',', more, hmore, by decide, hbehind⟩) (show 3 * (c :: x').length + 2 ≤ 3 * s'.length + 3 by omega)
      obtain ⟨more', hmore', halike⟩ := halike.comma hopen hmore hbehind
      have hrest' : rest'.length < (c :: x').length := ((shrinks _).sum hpart').length_lt
      have hblanks := (suffix_blanks rest').length_le
      rw [hmore', List.length_cons] at hblanks
      rw [hpart', Option.bind_some, hv, Option.bind_some, openTail?_comma hmore']
      exact ih halike hread (by omega)
    · rw [openTail?_of_ne fun more heq => hmore ⟨more, heq⟩] at hread
      cases hread
      obtain ⟨rest', hpart', halike⟩ := (p.rereads _).sum (depths_whole hopen) halike hpart (Or.inl ⟨rfl, rfl⟩)
        (show 3 * (c :: x').length + 2 ≤ 3 * s'.length + 3 by omega)
      rw [hpart', Option.bind_some, hv, Option.bind_some, halike.eq_after]
      exact Or.inl (openTail?_of_ne hcomma)

/-- An expression is read in the code as it was written; a comma behind its last item needs the end of its line. -/
theorem Alike.expression {v : Value} (h : p.Alike 0 s s') (hread : Literal.expression? s = some (v, p.behind)) :
    Literal.expression? s' = some (v, p.after) ∨ Literal.expression? s' = none ∧ ¬EndsLine p.after := by
  rw [expression?_eq] at hread ⊢
  obtain ⟨⟨part, rest⟩, hpart, hread⟩ := Option.bind_eq_some_iff.1 hread
  obtain ⟨u, hu, hread⟩ := Option.bind_eq_some_iff.1 hread
  by_cases hmore : ∃ more, Literal.blanks rest = ',' :: more
  · obtain ⟨more, hmore⟩ := hmore
    rw [itemTail?_comma hmore] at hread
    obtain ⟨⟨vs, r⟩, hvs, heq⟩ := Option.map_eq_some_iff.1 hread
    cases heq
    have hbehind : p.behind.length ≤ more.length := (suffix_openTuple hvs).length_le
    obtain ⟨rest', hpart', halike⟩ := (p.rereads _).sum (depths_whole hopen) h hpart
      (Or.inr ⟨',', more, hmore, by decide, hbehind⟩) (show 3 * s'.length + 2 ≤ 3 * s'.length + 3 by omega)
    obtain ⟨more', hmore', halike⟩ := halike.comma hopen hmore hbehind
    have hrest' : rest'.length < s'.length := ((shrinks _).sum hpart').length_lt
    have hblanks := (suffix_blanks rest').length_le
    rw [hmore', List.length_cons] at hblanks
    rw [hpart', Option.bind_some, hu, Option.bind_some, itemTail?_comma hmore']
    rcases halike.openTuple hopen hcomma hvs (show more'.length < s'.length + 1 by omega) with hvs' | ⟨hnone, hends⟩
    · rw [hvs']
      exact Or.inl rfl
    · rw [hnone]
      exact Or.inr ⟨rfl, hends⟩
  · rw [itemTail?_of_ne fun more heq => hmore ⟨more, heq⟩] at hread
    cases hread
    obtain ⟨rest', hpart', halike⟩ := (p.rereads _).sum (depths_whole hopen) h hpart (Or.inl ⟨rfl, rfl⟩)
      (show 3 * s'.length + 2 ≤ 3 * s'.length + 3 by omega)
    rw [hpart', Option.bind_some, hu, Option.bind_some, halike.eq_after]
    exact Or.inl (itemTail?_of_ne hcomma)

end Whole

end Site

end Amalgam.Source.Layout
