import Mathlib.Data.List.Forall2

/-!
# Sequences of steps that may fail

What a sequence that succeeds says of its steps, and which failures a sequence cannot end in.
-/

namespace Amalgam.Outcome

variable {ε α β : Type}

theorem bind_eq_ok {x : Except ε α} {f : α → Except ε β} {b : β} :
    x >>= f = .ok b ↔ ∃ a, x = .ok a ∧ f a = .ok b := by
  cases x with
  | error e =>
    constructor
    · intro h
      cases h
    · rintro ⟨_, h, _⟩
      cases h
  | ok a =>
    constructor
    · exact fun h => ⟨a, rfl, h⟩
    · rintro ⟨_, h, hb⟩
      cases h
      exact hb

theorem exists_eq_ok_of_isSome {x : Except ε α} (h : x.toOption.isSome = true) : ∃ a, x = .ok a := by
  cases x with
  | error e => cases h
  | ok a => exact ⟨a, rfl⟩

theorem eq_ok_of_toOption {x : Except ε α} {a : α} (h : x.toOption = some a) : x = .ok a := by
  cases x with
  | error e => cases h
  | ok a' => exact congrArg Except.ok (Option.some.inj h)

/-- The failure that a step ends in. -/
def failure? : Except ε α → Option ε
  | .ok _ => none
  | .error e => some e

theorem eq_error_of_failure? {x : Except ε α} {e : ε} (h : failure? x = some e) : x = .error e := by
  cases x with
  | ok a => cases h
  | error e' => exact congrArg Except.error (Option.some.inj h)

theorem mapError_eq_ok {ε' : Type} {x : Except ε α} {f : ε → ε'} {a : α} : x.mapError f = .ok a ↔ x = .ok a := by
  cases x with
  | error e => exact ⟨fun h => (by cases h), fun h => (by cases h)⟩
  | ok a' => exact ⟨fun h => (by cases h; rfl), fun h => (by cases h; rfl)⟩

theorem mapError_eq_error {ε' : Type} {x : Except ε α} {f : ε → ε'} {e : ε'} :
    x.mapError f = .error e ↔ ∃ cause, x = .error cause ∧ e = f cause := by
  cases x with
  | error cause => exact ⟨fun h => (by cases h; exact ⟨cause, rfl, rfl⟩), fun ⟨_, h, he⟩ => (by cases h; rw [he]; rfl)⟩
  | ok a => exact ⟨fun h => (by cases h), fun ⟨_, h, _⟩ => (by cases h)⟩

theorem map_eq_ok {x : Except ε α} {f : α → β} {b : β} : x.map f = .ok b ↔ ∃ a, x = .ok a ∧ f a = b := by
  cases x with
  | error e => exact ⟨fun h => (by cases h), fun ⟨_, h, _⟩ => (by cases h)⟩
  | ok a => exact ⟨fun h => (by cases h; exact ⟨a, rfl, rfl⟩), fun ⟨_, h, hb⟩ => (by cases h; rw [← hb]; rfl)⟩

/-- A traversal succeeds exactly if it does at every item. -/
theorem mapM_eq_ok {f : α → Except ε β} {as : List α} {bs : List β} :
    as.mapM f = .ok bs ↔ List.Forall₂ (fun a b => f a = .ok b) as bs := by
  induction as generalizing bs with
  | nil =>
    rw [List.forall₂_nil_left_iff, List.mapM_nil]
    exact ⟨fun h => by cases h; rfl, fun h => by rw [h]; rfl⟩
  | cons a as ih =>
    rw [List.mapM_cons, bind_eq_ok, List.forall₂_cons_left_iff]
    constructor
    · rintro ⟨b, hb, h⟩
      obtain ⟨rest, hrest, h⟩ := bind_eq_ok.1 h
      cases h
      exact ⟨b, rest, hb, ih.1 hrest, rfl⟩
    · rintro ⟨b, rest, hb, hrest, rfl⟩
      exact ⟨b, hb, bind_eq_ok.2 ⟨rest, ih.2 hrest, rfl⟩⟩

/-- A traversal fails as it does at the first item where it fails. -/
theorem mapM_eq_error {f : α → Except ε β} {as : List α} {e : ε} : as.mapM f = .error e ↔
    ∃ before a after, as = before ++ a :: after ∧ (∀ x ∈ before, ∃ b, f x = .ok b) ∧ f a = .error e := by
  induction as with
  | nil =>
    constructor
    · intro h
      cases h
    · rintro ⟨before, a, after, h, -, -⟩
      cases before <;> cases h
  | cons a as ih =>
    rw [List.mapM_cons]
    cases ha : f a with
    | error e' =>
      constructor
      · intro h
        cases h
        exact ⟨[], a, as, rfl, by simp, ha⟩
      · rintro ⟨before, x, after, hlist, hbefore, hx⟩
        cases before with
        | nil =>
          cases hlist
          rw [ha] at hx
          cases hx
          rfl
        | cons y before =>
          cases hlist
          obtain ⟨b, hb⟩ := hbefore a List.mem_cons_self
          rw [ha] at hb
          cases hb
    | ok b =>
      have hrest : (do
          let b ← (.ok b : Except ε β)
          let bs ← as.mapM f
          return b :: bs) = (.error e : Except ε (List β)) ↔ as.mapM f = .error e := by
        cases as.mapM f with
        | error e' => exact ⟨fun h => by cases h; rfl, fun h => by cases h; rfl⟩
        | ok bs => exact ⟨fun h => (by cases h), fun h => (by cases h)⟩
      rw [hrest, ih]
      constructor
      · rintro ⟨before, x, after, rfl, hbefore, hx⟩
        refine ⟨a :: before, x, after, rfl, fun y hy => ?_, hx⟩
        rcases List.mem_cons.1 hy with rfl | hy
        · exact ⟨b, ha⟩
        · exact hbefore y hy
      · rintro ⟨before, x, after, hlist, hbefore, hx⟩
        cases before with
        | nil =>
          cases hlist
          rw [ha] at hx
          cases hx
        | cons y before =>
          cases hlist
          exact ⟨before, x, after, rfl, fun z hz => hbefore z (List.mem_cons_of_mem _ hz), hx⟩

theorem exists_mapM_eq_ok {f : α → Except ε β} {as : List α} (h : ∀ a ∈ as, ∃ b, f a = .ok b) :
    ∃ bs, as.mapM f = .ok bs := by
  induction as with
  | nil => exact ⟨[], rfl⟩
  | cons a as ih =>
    obtain ⟨b, hb⟩ := h a List.mem_cons_self
    obtain ⟨bs, hbs⟩ := ih fun x hx => h x (List.mem_cons_of_mem _ hx)
    refine ⟨b :: bs, ?_⟩
    rw [List.mapM_cons, hb]
    show (as.mapM f >>= fun bs => pure (b :: bs)) = _
    rw [hbs]
    rfl

theorem map_bind {γ : Type} (x : Except ε α) (f : α → Except ε β) (g : β → γ) :
    (x >>= f).map g = x >>= fun a => (f a).map g := by
  cases x <;> rfl

/-- A traversal of images whose steps give images gives the images of what it gave. -/
theorem mapM_map {α' β' : Type} {f : α → Except ε β} {f' : α' → Except ε β'} {g : α → α'} {h : β → β'} (as : List α)
    (heq : ∀ a ∈ as, f' (g a) = (f a).map h) : (as.map g).mapM f' = (as.mapM f).map (List.map h) := by
  induction as with
  | nil => rfl
  | cons a as ih =>
    rw [List.map_cons, List.mapM_cons, List.mapM_cons, heq a List.mem_cons_self, ih fun x hx => heq x (List.mem_cons_of_mem _ hx)]
    cases f a with
    | error e => rfl
    | ok b => cases as.mapM f <;> rfl

theorem exists_mem_of_forall₂ {R : α → β → Prop} {as : List α} {bs : List β} (h : List.Forall₂ R as bs) {a : α}
    (ha : a ∈ as) : ∃ b ∈ bs, R a b := by
  induction h with
  | nil => cases ha
  | cons hab _ ih =>
    rcases List.mem_cons.1 ha with rfl | ha
    · exact ⟨_, List.mem_cons_self, hab⟩
    · obtain ⟨b, hb, h⟩ := ih ha
      exact ⟨b, List.mem_cons_of_mem _ hb, h⟩

/-- What of its item tells whether a result is as wanted tells so of the whole traversal. -/
theorem exists_mem_iff_of_mapM {f : α → Except ε β} {as : List α} {bs : List β} (h : as.mapM f = .ok bs) {P : β → Prop}
    {Q : α → Prop} (hstep : ∀ a ∈ as, ∀ b, f a = .ok b → (P b ↔ Q a)) : (∃ b ∈ bs, P b) ↔ ∃ a ∈ as, Q a := by
  have hall := mapM_eq_ok.1 h
  clear h
  induction hall with
  | nil => simp
  | @cons a b as bs hab _ ih =>
    simp only [List.mem_cons, exists_eq_or_imp]
    exact or_congr (hstep a List.mem_cons_self b hab) (ih fun a' ha' => hstep a' (List.mem_cons_of_mem _ ha'))

/-- Results of which something is known from their items. -/
theorem map_eq_of_mapM {γ : Type} {f : α → Except ε β} {as : List α} {bs : List β} (h : as.mapM f = .ok bs) {g : β → γ}
    {g' : α → γ} (hstep : ∀ a ∈ as, ∀ b, f a = .ok b → g b = g' a) : bs.map g = as.map g' := by
  have hall := mapM_eq_ok.1 h
  clear h
  induction hall with
  | nil => rfl
  | @cons a b as bs hab _ ih =>
    rw [List.map_cons, List.map_cons, hstep a List.mem_cons_self b hab,
      ih fun a' ha' => hstep a' (List.mem_cons_of_mem _ ha')]

/-- A traversal of two parts is one of each of them. -/
theorem mapM_append_eq_ok {f : α → Except ε β} {as as' : List α} {bs : List β} :
    (as ++ as').mapM f = .ok bs ↔ ∃ cs cs', as.mapM f = .ok cs ∧ as'.mapM f = .ok cs' ∧ bs = cs ++ cs' := by
  rw [List.mapM_append, bind_eq_ok]
  constructor
  · rintro ⟨cs, hcs, h⟩
    obtain ⟨cs', hcs', h⟩ := bind_eq_ok.1 h
    cases h
    exact ⟨cs, cs', hcs, hcs', rfl⟩
  · rintro ⟨cs, cs', hcs, hcs', rfl⟩
    exact ⟨cs, hcs, bind_eq_ok.2 ⟨cs', hcs', rfl⟩⟩

/-- What comes of one element of a traversal stands among what comes of elements with other keys. -/
theorem exists_split_of_mapM {κ : Type} {key : α → κ} {f : α → Except ε β} {as : List α} {bs : List β} {a : α}
    (h : as.mapM f = .ok bs) (distinct : (as.map key).Nodup) (ha : a ∈ as) : ∃ done b rest, bs = done ++ b :: rest ∧
      f a = .ok b ∧ ∀ b' ∈ done ++ rest, ∃ a' ∈ as, f a' = .ok b' ∧ key a' ≠ key a := by
  obtain ⟨before, after, rfl⟩ := List.append_of_mem ha
  obtain ⟨done, others, hdone, hothers, rfl⟩ := mapM_append_eq_ok.1 h
  obtain ⟨b, rest, hb, hrest, rfl⟩ := List.forall₂_cons_left_iff.1 (mapM_eq_ok.1 hothers)
  refine ⟨done, b, rest, rfl, hb, fun b' hb' => ?_⟩
  have hfirst : key a ∉ (before ++ after).map key :=
    (List.nodup_cons.1 ((List.perm_middle.map key).nodup_iff.1 distinct)).1
  have hmem : ∃ a' ∈ before ++ after, f a' = .ok b' := by
    rcases List.mem_append.1 hb' with hb' | hb'
    · obtain ⟨a', ha', h⟩ := exists_mem_of_forall₂ (mapM_eq_ok.1 hdone).flip hb'
      exact ⟨a', List.mem_append_left _ ha', h⟩
    · obtain ⟨a', ha', h⟩ := exists_mem_of_forall₂ hrest.flip hb'
      exact ⟨a', List.mem_append_right _ ha', h⟩
  obtain ⟨a', ha', h⟩ := hmem
  exact ⟨a', List.perm_middle.symm.subset (List.mem_cons_of_mem _ ha'), h, fun heq => hfirst (heq ▸ List.mem_map_of_mem ha')⟩

/-- A traversal of what there may be. -/
theorem mapM_toList_eq_ok {f : α → Except ε β} {a : Option α} {bs : List β} (h : a.toList.mapM f = .ok bs) :
    ∃ b : Option β, bs = b.toList ∧ Option.Rel (fun a b => f a = .ok b) a b := by
  cases a with
  | none =>
    cases h
    exact ⟨none, rfl, .none⟩
  | some a =>
    obtain ⟨b, rest, hb, hrest, rfl⟩ := List.forall₂_cons_left_iff.1 (mapM_eq_ok.1 h)
    rw [List.forall₂_nil_left_iff] at hrest
    rw [hrest]
    exact ⟨some b, rfl, .some hb⟩

/-! ## Failures that cannot occur -/

/-- A step that does not end in the given failure. -/
def Avoids (e : ε) (x : Except ε α) : Prop := x ≠ .error e

theorem avoids_ok (e : ε) (a : α) : Avoids e (.ok a : Except ε α) := by
  intro h
  cases h

theorem Avoids.bind {e : ε} {x : Except ε α} {f : α → Except ε β} (hx : Avoids e x)
    (hf : ∀ a, x = .ok a → Avoids e (f a)) : Avoids e (x >>= f) := by
  cases x with
  | error e' => exact fun h => hx (by cases h; rfl)
  | ok a => exact hf a rfl

theorem Avoids.mapM {e : ε} {f : α → Except ε β} {as : List α} (h : ∀ a ∈ as, Avoids e (f a)) :
    Avoids e (as.mapM f) := by
  induction as with
  | nil => exact avoids_ok e _
  | cons a as ih =>
    rw [List.mapM_cons]
    refine (h a List.mem_cons_self).bind fun b _ => ?_
    exact (ih fun x hx => h x (List.mem_cons_of_mem _ hx)).bind fun bs _ => avoids_ok e _

end Amalgam.Outcome
