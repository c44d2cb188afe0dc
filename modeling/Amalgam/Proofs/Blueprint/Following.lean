import Amalgam.Proofs.World.Serving

/-!
# Plans that follow one another

A plan from live classes claims classes and reads manifests on its way, a plan from manifests does not. The second follows
the first (`Follows`) if it comes to the same outcome whenever the first one ends where it is said to end: then all that the
first has learned by the end is known to the second from the start. Sequences follow each other step by step
(`Follows.bind`), and so do the questions to the two providers (`follows_manifest`, `follows_resolveAll`).
-/

namespace Amalgam

/-- How the states of a plan from live classes go with those of a plan that follows it. -/
structure Escort (σ τ : Type) where
  roster : σ → Roster
  same : σ → τ → Prop

/-- Questions to the provider alone. -/
def Escort.question : Escort Roster Unit := ⟨id, fun _ _ => True⟩

/-- Whole plans leave the same notices. -/
def Escort.plan : Escort (Planning Roster) (Planning Unit) := ⟨Planning.provider, fun s u => s.notices = u.notices⟩

variable {σ τ α β : Type} {V : Escort σ τ} {stop : Roster}

/-- A plan that has failed is at its end; one that goes on has its end before it. -/
def Nears (stop : Roster) (r : Except Failure α) (c : Roster) : Prop :=
  match r with
  | .ok _ => c.Precedes stop
  | .error _ => c = stop

/-- An outcome and the state left, and the operation that comes to the same. -/
structure Ends (V : Escort σ τ) (stop : Roster) (P : α → Roster → Prop) (y : Act τ α) (s : σ) (r : Except Failure α)
    (t : σ) : Prop where
  grows : (V.roster s).Grows (V.roster t)
  sound : (V.roster t).Sound
  post : ∀ a, r = .ok a → P a (V.roster t)
  same : ∀ u, V.same s u → Nears stop r (V.roster t) → ∃ v, y.runFrom u = (r, v) ∧ V.same t v

/-- An operation from a state, and one that follows it in a plan that ends where it is said to. -/
def Follows (V : Escort σ τ) (stop : Roster) (P : α → Roster → Prop) (x : Act σ α) (y : Act τ α) (s : σ) : Prop :=
  Ends V stop P y s (x.runFrom s).1 (x.runFrom s).2

namespace Follows

variable {P : α → Roster → Prop} {Q : β → Roster → Prop} {x : Act σ α} {y : Act τ α} {f : α → Act σ β} {g : α → Act τ β}
  {s : σ}

protected theorem pure {a : α} (hs : (V.roster s).Sound) (h : P a (V.roster s)) :
    Follows V stop P (pure a) (pure a) s where
  grows := Roster.Grows.refl _
  sound := hs
  post b hb := by
    cases hb
    exact h
  same u hu _ := ⟨u, rfl, hu⟩

/-- A result of which nothing is said. -/
theorem done (hs : (V.roster s).Sound) (a : α) : Follows V stop (fun _ _ => True) (pure a) (pure a) s :=
  Follows.pure hs trivial

protected theorem throw (hs : (V.roster s).Sound) (e : Failure) : Follows V stop P (throw e) (throw e) s where
  grows := Roster.Grows.refl _
  sound := hs
  post b hb := by cases hb
  same u hu _ := ⟨u, rfl, hu⟩

protected theorem ofExcept (hs : (V.roster s).Sound) (r : Except Failure α) :
    Follows V stop (fun _ _ => True) (Act.ofExcept r) (Act.ofExcept r) s where
  grows := Roster.Grows.refl _
  sound := hs
  post _ _ := trivial
  same u hu _ := ⟨u, rfl, hu⟩

/-- Sequences follow each other if their parts do. -/
protected theorem bind (hx : Follows V stop P x y s)
    (hf : ∀ a t, (V.roster s).Grows (V.roster t) → (V.roster t).Sound → P a (V.roster t) →
      Follows V stop Q (f a) (g a) t) : Follows V stop Q (x >>= f) (y >>= g) s := by
  unfold Follows at hx ⊢
  rw [Act.runFrom_bind]
  generalize x.runFrom s = done at hx
  obtain ⟨r, t⟩ := done
  cases r with
  | error e =>
    refine ⟨hx.grows, hx.sound, fun a ha => (by cases ha), fun u hu hend => ?_⟩
    obtain ⟨v, hv, hsame⟩ := hx.same u hu hend
    exact ⟨v, by rw [Act.runFrom_bind, hv], hsame⟩
  | ok a =>
    have hnext := hf a t hx.grows hx.sound (hx.post a rfl)
    refine ⟨hx.grows.trans hnext.grows, hnext.sound, hnext.post, fun u hu hend => ?_⟩
    have hbefore : (V.roster t).Precedes stop := by
      obtain ⟨hgrows, hsound, -, -⟩ := hnext
      dsimp only at hend
      generalize (f a).runFrom t = done at hend hgrows hsound
      obtain ⟨r, t'⟩ := done
      cases r with
      | ok b => exact hgrows.precedes hend
      | error e =>
        obtain rfl : V.roster t' = stop := hend
        exact ⟨hgrows, hsound⟩
    obtain ⟨v, hv, hsame⟩ := hx.same u hu hbefore
    rw [Act.runFrom_bind, hv]
    exact hnext.same v hsame hend

/-- One operation for each item. -/
protected theorem mapM {as : List α} {P : β → Roster → Prop} (hs : (V.roster s).Sound)
    (later : ∀ b c c', Roster.Grows c c' → P b c → P b c')
    (h : ∀ a ∈ as, ∀ t, (V.roster s).Grows (V.roster t) → (V.roster t).Sound → Follows V stop P (f a) (g a) t) :
    Follows V stop (fun bs c => ∀ b ∈ bs, P b c) (as.mapM f) (as.mapM g) s := by
  induction as generalizing s with
  | nil => exact Follows.pure hs fun b hb => absurd hb List.not_mem_nil
  | cons a as ih =>
    rw [List.mapM_cons, List.mapM_cons]
    refine (h a List.mem_cons_self s (Roster.Grows.refl _) hs).bind fun b t hst ht hb => ?_
    have hrest := ih ht fun a ha t' htt' => h a (List.mem_cons_of_mem _ ha) t' (hst.trans htt')
    refine hrest.bind fun bs t' htt' ht' hbs => Follows.pure ht' fun b' hb' => ?_
    rcases List.mem_cons.1 hb' with rfl | hb'
    · exact later _ _ _ htt' hb
    · exact hbs b' hb'

end Follows

/-! ## Questions in a plan -/

namespace Planner

variable {s : Planning Roster} {P : α → Roster → Prop}

theorem follows_ask {x : Act Roster α} {y : Act Unit α} (h : Follows .question stop P x y s.provider) :
    Follows .plan stop P (ask x) (ask y) s where
  grows := h.grows
  sound := h.sound
  post := h.post
  same u hu hend := by
    obtain ⟨v, hv, -⟩ := h.same u.provider trivial hend
    refine ⟨{ u with provider := v }, ?_, hu⟩
    rw [runFrom_ask, hv]
    rfl

theorem follows_note (hs : s.provider.Sound) (n : Notice) :
    Follows .plan stop (fun _ _ => True) (note n) (note n) s where
  grows := Roster.Grows.refl _
  sound := hs
  post _ _ := trivial
  same u hu _ := by
    refine ⟨{ u with notices := u.notices ++ [n] }, rfl, ?_⟩
    show s.notices ++ [n] = u.notices ++ [n]
    rw [show s.notices = u.notices from hu]

theorem follows_unknown (hs : s.provider.Sound) (strict : Bool) (cause : Unknown) :
    Follows .plan stop (fun _ _ => True) (unknown strict cause) (unknown strict cause) s := by
  unfold unknown
  cases strict with
  | true => exact Follows.throw hs _
  | false => exact follows_note hs _

end Planner

/-! ## Steps that ask nothing -/

section Quiet

variable {s : Planning Roster}

open Planner

theorem CombinatorSpec.follows_resolve (hs : s.provider.Sound) (member : String) (contributors : List SymbolRef)
    (spec : Option CombinatorSpec) :
    Follows .plan stop (fun _ _ => True) (resolve member contributors spec) (resolve member contributors spec) s := by
  unfold resolve
  cases spec with
  | none => exact Follows.done hs _
  | some spec =>
    cases horder : spec.order with
    | none =>
      simp only [horder]
      exact Follows.done hs _
    | some order =>
      simp only [horder]
      split
      · exact (follows_note hs _).bind fun _ t _ ht _ => Follows.done ht _
      · exact Follows.done hs _

theorem Cutpoints.follows_usable (hs : s.provider.Sound) (strict : Bool) (phase : Phase) (members names : List String) :
    Follows .plan stop (fun _ _ => True) (usable strict phase members names) (usable strict phase members names) s := by
  induction names generalizing s with
  | nil => exact Follows.done hs _
  | cons name rest ih =>
    unfold usable
    split
    · exact (ih hs).bind fun _ t _ ht _ => Follows.done ht _
    split
    · exact (follows_unknown hs strict _).bind fun _ t _ ht _ => ih ht
    split
    · exact (follows_unknown hs strict _).bind fun _ t _ ht _ => ih ht
    · exact (ih hs).bind fun _ t _ ht _ => Follows.done ht _

namespace Blueprint

theorem follows_knownSpecs (hs : s.provider.Sound) (strict : Bool) (members : List String)
    (specs : Entries CombinatorSpec) :
    Follows .plan stop (fun _ _ => True) (knownSpecs strict members specs) (knownSpecs strict members specs) s := by
  induction specs generalizing s with
  | nil => exact Follows.done hs _
  | cons e rest ih =>
    obtain ⟨member, spec⟩ := e
    unfold knownSpecs
    split
    · exact (ih hs).bind fun _ t _ ht _ => Follows.done ht _
    · exact (follows_unknown hs strict _).bind fun _ t _ ht _ => ih ht

theorem follows_dropAwaited (hs : s.provider.Sound) (strict : Bool) (member : String) (calls : List Advice.Call) :
    Follows .plan stop (fun _ _ => True) (dropAwaited strict member calls) (dropAwaited strict member calls) s := by
  induction calls generalizing s with
  | nil => exact Follows.done hs _
  | cons call rest ih =>
    unfold dropAwaited
    split
    · exact (follows_unknown hs strict _).bind fun _ t _ ht _ => ih ht
    · exact (ih hs).bind fun _ t _ ht _ => Follows.done ht _

theorem follows_usablePlan (hs : s.provider.Sound) (strict : Bool) (member : String) (isAsync : Bool)
    (plan : Advice.Plan) :
    Follows .plan stop (fun _ _ => True) (usablePlan strict member isAsync plan) (usablePlan strict member isAsync plan)
      s := by
  unfold usablePlan
  split
  · exact Follows.done hs _
  · refine (follows_dropAwaited hs strict member _).bind fun before t _ ht _ => ?_
    exact (follows_dropAwaited ht strict member _).bind fun after u _ hu _ => Follows.done hu _

theorem follows_planMethod (hs : s.provider.Sound) (strict : Bool) (c : Context) (member : String)
    (definitions : List (SymbolRef × Signature)) :
    Follows .plan stop (fun _ _ => True) (planMethod strict c member definitions) (planMethod strict c member definitions)
      s := by
  unfold planMethod
  cases definitions with
  | nil => exact Follows.done hs _
  | cons d rest =>
    obtain ⟨reference, signature⟩ := d
    dsimp only
    split
    · exact Follows.done hs _
    refine (CombinatorSpec.follows_resolve hs member _ _).bind fun joined t _ ht _ => ?_
    obtain ⟨spec, ordered⟩ := joined
    refine (follows_usablePlan ht strict member _ _).bind fun plan u _ hu _ => ?_
    exact (Follows.ofExcept hu _).bind fun method v _ hv _ => Follows.done hv _

theorem follows_planMethods (hs : s.provider.Sound) (strict : Bool) (c : Context) (members : MemberMap) :
    Follows .plan stop (fun _ _ => True) (planMethods strict c members) (planMethods strict c members) s := by
  induction members generalizing s with
  | nil => exact Follows.done hs _
  | cons e rest ih =>
    obtain ⟨member, definitions⟩ := e
    unfold planMethods
    refine (follows_planMethod hs strict c member definitions).bind fun here t _ ht _ => ?_
    exact (ih ht).bind fun more u _ hu _ => Follows.done hu _

end Blueprint

end Quiet

end Amalgam
