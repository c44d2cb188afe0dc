import Amalgam.Proofs.Blueprint.Outline
import Amalgam.Proofs.World.Identity

/-!
# From the entries of a caller to the functions of a plan

The spec that a plan has for a member is read off the member's own entry, or is the default of a hook without one
(`Blueprint.registered_of_planContext`). Reading gives every live function a path that no other live function has, however
alike their names are (`CombinatorSpec.parseAll_eq_ok`).
-/

namespace Amalgam

variable {σ : Type}

/-- The live function of an entry, if it gives one. -/
def CombinatorEntry.live? : CombinatorEntry → Option Handle
  | .ready spec => spec.binding
  | .single (.live handle _) => some handle
  | .ordered (.live handle _) _ => some handle
  | _ => none

/-- The reference that an entry gives. -/
def CombinatorEntry.ref? : CombinatorEntry → Option SymbolRef
  | .ready spec => some spec.function
  | .single (.text path) => SymbolRef.parse? path
  | .ordered (.text path) _ => SymbolRef.parse? path
  | .single (.live _ r) => some r
  | .ordered (.live _ r) _ => some r
  | _ => none

/-- A spec says of its function what the entry does; only the reference of a live one may be another. -/
def CombinatorEntry.Denotes (e : CombinatorEntry) (s : CombinatorSpec) : Prop :=
  s.binding = e.live? ∧ (e.live? = none → e.ref? = some s.function)

/-- The order that an entry gives: that of a spec that is ready, or the classes that its types stand for. -/
def CombinatorEntry.Orders (p : Provider σ) : CombinatorEntry → Option (List SymbolRef) → Prop
  | .ready spec, order => order = spec.order
  | .ordered _ types, order =>
    ∃ rs, order = some rs ∧ List.Forall₂ (fun type r => ∃ s s', (p.resolve type).runFrom s = (.ok r, s')) types rs
  | _, order => order = none

theorem Act.forall₂_of_mapM {α β : Type} {f : α → Act σ β} {as : List α} {bs : List β} {s s' : σ}
    (h : (as.mapM f).runFrom s = (.ok bs, s')) :
    List.Forall₂ (fun a b => ∃ s s', (f a).runFrom s = (.ok b, s')) as bs := by
  induction as generalizing bs s with
  | nil =>
    cases h
    exact .nil
  | cons a as ih =>
    rw [List.mapM_cons] at h
    obtain ⟨b, u, hb, h⟩ := Act.bind_eq_ok.1 h
    obtain ⟨bs, v, hbs, h⟩ := Act.bind_eq_ok.1 h
    cases h
    exact .cons ⟨s, u, hb⟩ (ih hbs)

namespace CombinatorSpec

variable {p : Provider σ} {participants : List SymbolRef} {t t' : σ}

theorem of_eq_ok {f : Callee} {order : Option (List SymbolRef)} {s : CombinatorSpec}
    (h : (CombinatorSpec.of f order : Act σ CombinatorSpec).runFrom t = (.ok s, t')) :
    (CombinatorEntry.single f).Denotes s ∧ ∀ types, (CombinatorEntry.ordered f types).Denotes s := by
  cases f with
  | text path =>
    obtain ⟨r, u, hparse, h⟩ := Act.bind_eq_ok.1 h
    cases h
    unfold Provider.parse at hparse
    cases hp : SymbolRef.parse? path with
    | none =>
      rw [hp] at hparse
      cases hparse
    | some found =>
      rw [hp] at hparse
      cases hparse
      exact ⟨⟨rfl, fun _ => hp⟩, fun _ => ⟨rfl, fun _ => hp⟩⟩
  | live handle r =>
    cases h
    exact ⟨⟨rfl, fun hnone => nomatch hnone⟩, fun _ => ⟨rfl, fun hnone => nomatch hnone⟩⟩
  | nameless shown => cases h
  | other shown => cases h

theorem parse_eq_ok {member : String} {entry : CombinatorEntry} {s : CombinatorSpec}
    (h : (parse p participants member entry).runFrom t = (.ok s, t')) : entry.Denotes s := by
  cases entry with
  | ready spec =>
    obtain ⟨_, u, hread, h⟩ := Act.bind_eq_ok.1 h
    cases hread
    obtain ⟨_, v, -, h⟩ := Act.bind_eq_ok.1 h
    cases h
    exact ⟨rfl, fun _ => rfl⟩
  | single f =>
    cases f with
    | other shown => cases h
    | nameless shown => cases h
    | _ =>
      obtain ⟨_, u, hread, h⟩ := Act.bind_eq_ok.1 h
      obtain ⟨_, v, -, h⟩ := Act.bind_eq_ok.1 h
      cases h
      exact (of_eq_ok hread).1
  | ordered f types =>
    obtain ⟨refs, u, -, h⟩ := Act.bind_eq_ok.1 h
    obtain ⟨_, v, hread, h⟩ := Act.bind_eq_ok.1 h
    obtain ⟨_, x, -, h⟩ := Act.bind_eq_ok.1 h
    cases h
    exact (of_eq_ok hread).2 types
  | badSequence shown => cases h

theorem order_of_eq_ok {f : Callee} {order : Option (List SymbolRef)} {s : CombinatorSpec}
    (h : (CombinatorSpec.of f order : Act σ CombinatorSpec).runFrom t = (.ok s, t')) : s.order = order := by
  cases f with
  | text path =>
    obtain ⟨r, u, -, h⟩ := Act.bind_eq_ok.1 h
    cases h
    rfl
  | live handle r =>
    cases h
    rfl
  | nameless shown => cases h
  | other shown => cases h

/-- The order of a spec is the one that its entry gives. -/
theorem orders_of_parse {member : String} {entry : CombinatorEntry} {s : CombinatorSpec}
    (h : (parse p participants member entry).runFrom t = (.ok s, t')) : entry.Orders p s.order := by
  cases entry with
  | ready spec =>
    obtain ⟨_, u, hread, h⟩ := Act.bind_eq_ok.1 h
    cases hread
    obtain ⟨_, v, -, h⟩ := Act.bind_eq_ok.1 h
    cases h
    rfl
  | single f =>
    cases f with
    | other shown => cases h
    | nameless shown => cases h
    | _ =>
      obtain ⟨_, u, hread, h⟩ := Act.bind_eq_ok.1 h
      obtain ⟨_, v, -, h⟩ := Act.bind_eq_ok.1 h
      cases h
      exact order_of_eq_ok hread
  | ordered f types =>
    obtain ⟨refs, u, hrefs, h⟩ := Act.bind_eq_ok.1 h
    obtain ⟨_, v, hread, h⟩ := Act.bind_eq_ok.1 h
    obtain ⟨_, x, -, h⟩ := Act.bind_eq_ok.1 h
    cases h
    exact ⟨refs, order_of_eq_ok hread, Act.forall₂_of_mapM hrefs⟩
  | badSequence shown => cases h

/-! ## Claiming paths for live functions -/

/-- Every live function holds the path of its spec. -/
def Claimed (claimed : Entries Handle) (specs : Entries CombinatorSpec) : Prop :=
  ∀ e ∈ specs, ∀ handle, e.2.binding = some handle → claimed.get? e.2.function.path = some handle

/-- A live function may have a reference that no other one has. -/
theorem claim_eq (claimed : Entries Handle) {s : CombinatorSpec} {handle : Handle} (h : s.binding = some handle) :
    claim claimed s =
      (let ref := nthRef s.function
        (firstFree (fun n => (claimed.get? (nthRef s.function n).path).all (· == handle)) claimed.length 1)
      ({ s with function := ref }, claimed.put ref.path handle)) := by
  simp only [claim, h]
  rw [firstFree_congr (g := fun n => (claimed.get? (nthRef s.function n).path).all (· == handle)) fun n => ?_]
  cases claimed.get? (nthRef s.function n).path <;> rfl

/-- A claim takes nothing away, and changes no more of a spec than the reference of a live function. -/
theorem claim_spec (claimed : Entries Handle) (s : CombinatorSpec) :
    (claim claimed s).1.binding = s.binding ∧ (s.binding = none → (claim claimed s).1.function = s.function) ∧
      (∀ path handle, claimed.get? path = some handle → (claim claimed s).2.get? path = some handle) ∧
      ∀ handle, s.binding = some handle → (claim claimed s).2.get? (claim claimed s).1.function.path = some handle := by
  cases hb : s.binding with
  | none =>
    have : claim claimed s = (s, claimed) := by simp only [claim, hb]
    rw [this]
    exact ⟨hb, fun _ => rfl, fun _ _ h => h, fun _ h => absurd h.symm (Option.some_ne_none _)⟩
  | some handle =>
    rw [claim_eq claimed hb]
    have hfree := firstFree_of_injective (f := fun n => (claimed.get? (nthRef s.function n).path).all (· == handle))
      (@SymbolRef.path_variant_injective s.function) fun n (hn : _ ∉ claimed.keys) => by
        show (claimed.get? (Roster.nthRef s.function n).path).all (· == handle) = true
        rw [(Entries.get?_eq_none_iff _ _).2 hn]
        rfl
    rw [Entries.keys, List.length_map] at hfree
    refine ⟨hb, fun h => absurd h (Option.some_ne_none _), fun path other hget => ?_, fun other h => ?_⟩
    · dsimp only
      by_cases hpath : path = (nthRef s.function
          (firstFree (fun n => (claimed.get? (nthRef s.function n).path).all (· == handle)) claimed.length 1)).path
      · rw [← hpath, hget] at hfree
        rw [← hpath, Entries.get?_put_self]
        exact congrArg some (eq_of_beq hfree).symm
      · rwa [Entries.get?_put_of_ne _ _ hpath]
    · cases h
      exact Entries.get?_put_self _ _ _

/-! ## Reading all entries -/

/-- Every live function claims its path in the course of reading. -/
theorem claimed_of_parseFrom {specs all : Entries CombinatorSpec} {claimed : Entries Handle}
    {entries : List (String × CombinatorEntry)} (hclaimed : Claimed claimed specs)
    (h : (parseFrom p participants specs claimed entries).runFrom t = (.ok all, t')) :
    ∃ claimed', Claimed claimed' all := by
  induction entries generalizing specs claimed t with
  | nil =>
    cases h
    exact ⟨claimed, hclaimed⟩
  | cons e rest ih =>
    obtain ⟨member, entry⟩ := e
    obtain ⟨s, u, -, h⟩ := Act.bind_eq_ok.1 h
    obtain ⟨hbinding, -, hkept, hnew⟩ := claim_spec claimed s
    refine ih (fun e he handle hhandle => ?_) h
    rcases Entries.mem_put he with he | rfl
    · exact hkept _ _ (hclaimed e he handle hhandle)
    · exact hnew handle (hbinding ▸ hhandle)

/-- What every entry and its spec have in common, however the path is claimed, all of them do. -/
theorem parseFrom_rel {R : CombinatorEntry → CombinatorSpec → Prop}
    (hstep : ∀ {member entry s t t'} claimed, (parse p participants member entry).runFrom t = (.ok s, t') →
      R entry (claim claimed s).1)
    {done : Entries CombinatorEntry} {specs all : Entries CombinatorSpec} {claimed : Entries Handle}
    {entries : List (String × CombinatorEntry)} (hread : ∀ member, Option.Rel R (done.get? member) (specs.get? member))
    (h : (parseFrom p participants specs claimed entries).runFrom t = (.ok all, t')) : ∀ member,
      Option.Rel R (Entries.get? (entries.foldl (fun done e => done.put e.1 e.2) done) member) (all.get? member) := by
  induction entries generalizing done specs claimed t with
  | nil =>
    cases h
    exact hread
  | cons e rest ih =>
    obtain ⟨member, entry⟩ := e
    obtain ⟨s, u, hs, h⟩ := Act.bind_eq_ok.1 h
    refine ih (fun other => ?_) h
    by_cases ho : other = member
    · subst ho
      rw [Entries.get?_put_self, Entries.get?_put_self]
      exact .some (hstep claimed hs)
    · rw [Entries.get?_put_of_ne _ _ ho, Entries.get?_put_of_ne _ _ ho]
      exact hread other

/-- A claimed path changes neither what a spec says of its function nor its order. -/
theorem denotes_of_claim {entry : CombinatorEntry} {s : CombinatorSpec} (claimed : Entries Handle)
    (h : entry.Denotes s) : entry.Denotes (claim claimed s).1 ∧ (claim claimed s).1.order = s.order := by
  obtain ⟨hbinding, hfunction, -⟩ := claim_spec claimed s
  refine ⟨⟨hbinding.trans h.1, fun hnone => ?_⟩, ?_⟩
  · rw [h.2 hnone, hfunction (h.1.trans hnone)]
  · unfold claim
    split <;> rfl

/-- Two specs with one path have the same live function, if both have one. -/
def Separate (specs : Entries CombinatorSpec) : Prop :=
  ∀ e ∈ specs, ∀ e' ∈ specs, e.2.function.path = e'.2.function.path →
    ∀ handle handle', e.2.binding = some handle → e'.2.binding = some handle' → handle = handle'

/-- The spec of a member is read off its own entry, and no two live functions get one path. -/
theorem parseAll_eq_ok {entries : Entries CombinatorEntry} {specs : Entries CombinatorSpec}
    (h : (parseAll p participants entries).runFrom t = (.ok specs, t')) : Separate specs ∧
      ∀ member, Option.Rel CombinatorEntry.Denotes ((Entries.ofList entries).get? member) (specs.get? member) := by
  obtain ⟨claimed, hclaimed⟩ := claimed_of_parseFrom (fun _ he => absurd he List.not_mem_nil) h
  have hempty : ∀ member, Option.Rel CombinatorEntry.Denotes (Entries.get? [] member) (Entries.get? [] member) :=
    fun _ => .none
  refine ⟨fun e he e' he' hpath handle handle' hh hh' => ?_,
    parseFrom_rel (fun claimed hs => (denotes_of_claim claimed (parse_eq_ok hs)).1) hempty h⟩
  have := hclaimed e he handle hh
  rw [hpath, hclaimed e' he' handle' hh'] at this
  exact (Option.some.inj this).symm

open Act (Keeps keeps_pure)

variable {Inv : σ → Prop} {Good : SymbolRef → Manifest → Prop}

theorem of_keeps (f : Callee) (order : Option (List SymbolRef)) :
    Keeps Inv (CombinatorSpec.of f order : Act σ CombinatorSpec) := by
  cases f with
  | text path =>
    refine Keeps.bind (fun s h => ?_) fun r => keeps_pure _
    unfold Provider.parse
    cases SymbolRef.parse? path <;> exact h
  | _ => exact fun s h => h

theorem checkOrder_keeps (member : String) (spec : CombinatorSpec) : Keeps Inv (checkOrder member participants spec) := by
  intro s h
  unfold checkOrder
  split <;> exact h

theorem parse_keeps (keeps : p.Keeps Inv Good) (member : String) (entry : CombinatorEntry) :
    Keeps Inv (parse p participants member entry) := by
  have hrest : ∀ spec : CombinatorSpec,
      Keeps Inv (checkOrder member participants spec >>= fun _ => (pure spec : Act σ CombinatorSpec)) :=
    fun spec => (checkOrder_keeps member spec).bind fun _ => keeps_pure spec
  cases entry with
  | ready spec => exact (keeps_pure spec).bind hrest
  | single f =>
    cases f with
    | other shown => exact fun s h => h
    | _ => exact (of_keeps _ none).bind hrest
  | ordered f order =>
    exact (Keeps.mapM fun t _ => keeps.resolve t).bind fun refs => (of_keeps f (some refs)).bind hrest
  | badSequence shown => exact fun s h => h

theorem parseAll_keeps (keeps : p.Keeps Inv Good) (entries : Entries CombinatorEntry) :
    Keeps Inv (parseAll p participants entries) := by
  suffices ∀ specs claimed, Keeps Inv (parseFrom p participants specs claimed entries) from this [] []
  induction entries with
  | nil => exact fun specs claimed => keeps_pure specs
  | cons e rest ih => exact fun specs claimed => (parse_keeps keeps e.1 e.2).bind fun spec => ih _ _

end CombinatorSpec

/-! ## What the plan keeps and adds -/

namespace Blueprint

/-- Exactly the specs of known members are kept. -/
theorem knownSpecs_eq_ok {strict : Bool} {members : List String} {specs kept : Entries CombinatorSpec}
    {t t' : Planning σ} (h : (knownSpecs strict members specs).runFrom t = (.ok kept, t')) :
    kept = specs.filter (fun e => members.contains e.1) ∧ t'.provider = t.provider := by
  induction specs generalizing kept t with
  | nil =>
    cases h
    exact ⟨rfl, rfl⟩
  | cons e rest ih =>
    obtain ⟨member, s⟩ := e
    unfold knownSpecs at h
    by_cases hm : members.contains member = true
    · rw [if_pos hm] at h
      obtain ⟨more, u, hmore, h⟩ := Act.bind_eq_ok.1 h
      cases h
      obtain ⟨rfl, ht⟩ := ih hmore
      exact ⟨by simp only [List.filter_cons, hm, if_true], ht⟩
    · rw [if_neg hm] at h
      obtain ⟨_, u, hu, h⟩ := Act.bind_eq_ok.1 h
      obtain ⟨rfl, ht⟩ := ih h
      exact ⟨by simp only [List.filter_cons, hm, if_false, Bool.false_eq_true], ht.trans (Planner.unknown_eq_ok hu).2⟩

/-- A hook has its default if it is defined and among the hooks of the names, and counts only where there is no spec. -/
theorem get?_withDefaults (d : Defaults) (members names : List String) (phase : Phase) (specs : Entries CombinatorSpec)
    (member : String) : (withDefaults d members phase names specs).get? member = (specs.get? member).or
      (if member ∈ members ∧ member ∈ names.map (Advice.hook phase) then some (d.specOf member) else none) := by
  induction names generalizing specs with
  | nil => simp [withDefaults]
  | cons name names ih =>
    have hstep : withDefaults d members phase (name :: names) specs = withDefaults d members phase names
        (if members.contains (Advice.hook phase name) then
          specs.putNew (Advice.hook phase name) (d.specOf (Advice.hook phase name)) else specs) := rfl
    rw [hstep, ih]
    by_cases hname : member = Advice.hook phase name
    · subst hname
      by_cases hmem : Advice.hook phase name ∈ members
      · rw [if_pos (List.contains_iff_mem.2 hmem), Entries.get?_putNew, if_pos rfl]
        cases specs.get? (Advice.hook phase name) <;> simp [hmem]
      · simp [hmem]
    · have hrest : member ∈ (name :: names).map (Advice.hook phase) ↔ member ∈ names.map (Advice.hook phase) := by
        rw [List.map_cons, List.mem_cons, or_iff_right hname]
      rw [if_congr (and_congr_right fun _ => hrest) rfl rfl]
      split
      · rw [Entries.get?_putNew, if_neg (Ne.symm hname), Option.or_none]
      · rfl

end Blueprint

/-- A spec of a member comes of the member's own entry, or is the default of a hook that has none. -/
def Request.Registers (q : Request) (d : Blueprint.Defaults) (member : String) (s : CombinatorSpec) : Prop :=
  match (Entries.ofList q.combinators).get? member with
  | some entry => entry.Denotes s
  | none => s = d.specOf member

namespace Blueprint

variable {σ : Type} {p : Provider σ}

theorem usable_eq_ok {strict : Bool} {phase : Phase} {members names kept : List String} {t t' : Planning σ}
    (h : (Cutpoints.usable strict phase members names).runFrom t = (.ok kept, t')) : t'.provider = t.provider := by
  induction names generalizing kept t with
  | nil =>
    cases h
    rfl
  | cons name rest ih =>
    unfold Cutpoints.usable at h
    split at h
    · obtain ⟨more, u, hmore, h⟩ := Act.bind_eq_ok.1 h
      cases h
      exact ih hmore
    · split at h
      · obtain ⟨_, u, hu, h⟩ := Act.bind_eq_ok.1 h
        exact (ih h).trans (Planner.unknown_eq_ok hu).2
      · split at h
        · obtain ⟨_, u, hu, h⟩ := Act.bind_eq_ok.1 h
          exact (ih h).trans (Planner.unknown_eq_ok hu).2
        · obtain ⟨more, u, hmore, h⟩ := Act.bind_eq_ok.1 h
          cases h
          exact ih hmore

/-- Reading combinators asks nothing of the provider but to resolve the classes of an order. -/
theorem planContext_keeps {Inv : σ → Prop} {Good : SymbolRef → Manifest → Prop} (keeps : p.Keeps Inv Good) {d : Defaults}
    {strict : Bool} {q : Request} {x : Mix} {members : MemberMap} {c : Context} {t t' : Planning σ}
    (good : Inv t.provider) (h : (planContext p d strict q x members).runFrom t = (.ok c, t')) : Inv t'.provider := by
  obtain ⟨parsed, u, hparsed, h⟩ := Act.bind_eq_ok.1 h
  have hu : Inv u.provider := by
    have hkeeps : Act.Keeps Inv (CombinatorSpec.parseAll p x.participants q.combinators) :=
      CombinatorSpec.parseAll_keeps keeps q.combinators
    have := hkeeps t.provider good
    rwa [Planner.ask_eq_ok hparsed] at this
  obtain ⟨specs, u', hknown, h⟩ := Act.bind_eq_ok.1 h
  obtain ⟨beforeNames, v, hv, h⟩ := Act.bind_eq_ok.1 h
  obtain ⟨before, v', hbefore, h⟩ := Act.bind_eq_ok.1 h
  obtain ⟨afterNames, y, hy, h⟩ := Act.bind_eq_ok.1 h
  obtain ⟨after, y', hafter, h⟩ := Act.bind_eq_ok.1 h
  cases h
  rw [Act.runFrom_ofExcept, Prod.mk.injEq] at hv hy
  obtain ⟨-, rfl⟩ := hv
  obtain ⟨-, rfl⟩ := hy
  rwa [usable_eq_ok hafter, usable_eq_ok hbefore, (knownSpecs_eq_ok hknown).2]

/-- The combinators of a plan are those registered; live functions given by the caller never share a path. -/
theorem registered_of_planContext {d : Defaults} {strict : Bool} {q : Request} {x : Mix} {members : MemberMap}
    {c : Context} {t t' : Planning σ} (h : (planContext p d strict q x members).runFrom t = (.ok c, t')) :
    ∃ read, CombinatorSpec.Separate read ∧ ∀ member ∈ members.keys, ∀ s, c.specs.get? member = some s →
      q.Registers d member s ∧ ((Entries.ofList q.combinators).get? member ≠ none → (member, s) ∈ read) := by
  obtain ⟨parsed, u, hparsed, h⟩ := Act.bind_eq_ok.1 h
  obtain ⟨hseparate, hread⟩ := CombinatorSpec.parseAll_eq_ok (Planner.ask_eq_ok hparsed)
  obtain ⟨specs, u', hknown, h⟩ := Act.bind_eq_ok.1 h
  obtain ⟨rfl, -⟩ := knownSpecs_eq_ok hknown
  obtain ⟨beforeNames, v, -, h⟩ := Act.bind_eq_ok.1 h
  obtain ⟨before, v', -, h⟩ := Act.bind_eq_ok.1 h
  obtain ⟨afterNames, x, -, h⟩ := Act.bind_eq_ok.1 h
  obtain ⟨after, x', -, h⟩ := Act.bind_eq_ok.1 h
  cases h
  refine ⟨parsed, hseparate, fun member hmember s hs => ?_⟩
  have hkept : Entries.get? (parsed.filter fun e => members.keys.contains e.1) member = parsed.get? member :=
    Entries.get?_filter _ (by simpa using hmember)
  have hs : some s = _ := hs.symm
  rw [get?_withDefaults, get?_withDefaults, hkept] at hs
  have hfrom := hread member
  unfold Request.Registers
  cases hentry : (Entries.ofList q.combinators).get? member with
  | some entry =>
    cases hspec : parsed.get? member with
    | none =>
      rw [hentry, hspec] at hfrom
      cases hfrom
    | some s' =>
      rw [hentry, hspec] at hfrom
      obtain rfl : s' = s := by simpa [hspec] using hs.symm
      cases hfrom with
      | some hdenotes => exact ⟨hdenotes, fun _ => Entries.mem_of_get? hspec⟩
  | none =>
    cases hspec : parsed.get? member with
    | some s' =>
      rw [hentry, hspec] at hfrom
      cases hfrom
    | none =>
      refine ⟨?_, fun hne => absurd rfl hne⟩
      rw [hspec, Option.none_or] at hs
      split at hs
      · exact Option.some.inj hs
      · rw [Option.none_or] at hs
        split at hs
        · exact Option.some.inj hs
        · cases hs

/-- The stages of a plan, and what those that are left out leave of the provider. -/
theorem stages_of_outline {d : Defaults} {strict : Bool} {q : Request} {o : Outline} {t t' : Planning σ}
    (h : (outline p d strict q).runFrom t = (.ok o, t')) : ∃ u v, (resolveMix p q).runFrom t = (.ok o.mix, u) ∧
      (planHeader p q.name o.mix).runFrom u = (.ok (o.header, o.extra), v) ∧
      (∀ {Inv : σ → Prop} {Good : SymbolRef → Manifest → Prop}, p.Keeps Inv Good → Inv v.provider → Inv t'.provider) ∧
      ∃ w x y, (memberMap p .base [] o.mix.participants).runFrom w = (.ok o.context.members, x) ∧
        (planContext p d strict q o.mix o.context.members).runFrom x = (.ok o.context, y) ∧
        (planMethods strict o.context o.context.members).runFrom y = (.ok o.methods, t') := by
  obtain ⟨-, u, v, w, x, y, hmix, hheader, hfields, hmembers, hcontext, hmethods⟩ := runs_of_outline h
  refine ⟨u, v, hmix, hheader, fun keeps good => ?_, w, x, y, hmembers, hcontext, hmethods⟩
  have good := (Fields.addContributors_eq_ok keeps good (Planner.ask_eq_ok hfields)).2
  have good := (memberMap_eq_ok keeps MemberMap.Sound.nil (List.Subset.refl o.mix.participants) good hmembers).2
  rw [(planMethods_eq hmethods).2]
  exact planContext_keeps keeps good hcontext

/--
The members of a plan are those of the manifests that are served once its contributors are resolved, and the provider stays
in good states from then on.
-/
theorem members_of_outline {d : Defaults} {strict : Bool} {q : Request} {o : Outline} {t t' : Planning σ}
    (h : (outline p d strict q).runFrom t = (.ok o, t')) : ∃ u, (resolveMix p q).runFrom t = (.ok o.mix, u) ∧
      ∀ {Inv : σ → Prop} {Good : SymbolRef → Manifest → Prop}, p.Keeps Inv Good → Inv u.provider →
        o.context.members.Sound o.mix.participants Good ∧ Inv t'.provider := by
  obtain ⟨-, u, v, w, x, y, hmix, hheader, hfields, hmembers, hcontext, hmethods⟩ := runs_of_outline h
  refine ⟨u, hmix, fun keeps good => ?_⟩
  have good := (planHeader_eq_ok keeps good hheader).2.2.2
  have good := (Fields.addContributors_eq_ok keeps good (Planner.ask_eq_ok hfields)).2
  obtain ⟨hsound, good⟩ := memberMap_eq_ok keeps MemberMap.Sound.nil (List.Subset.refl _) good hmembers
  refine ⟨hsound, ?_⟩
  rw [(planMethods_eq hmethods).2]
  exact planContext_keeps keeps good hcontext

/-- The fields of a plan, but for the reserved one, are those of the manifests that are served, each with the path of its contributor. -/
theorem fields_of_outline {d : Defaults} {strict : Bool} {q : Request} {o : Outline} {t t' : Planning σ}
    (h : (outline p d strict q).runFrom t = (.ok o, t')) : ∃ u, (resolveMix p q).runFrom t = (.ok o.mix, u) ∧
      ∀ {Inv : σ → Prop} {Good : SymbolRef → Manifest → Prop}, p.Keeps Inv Good → Inv u.provider →
        ∀ f ∈ o.fields, f.name ≠ reservedField → ∃ r ∈ o.mix.participants, ∃ manifest, Good r manifest ∧
          ∃ g ∈ manifest.fields, f = Fields.FieldDef.ofField r g := by
  obtain ⟨-, u, v, w, x, y, hmix, hheader, hfields, -, -, -⟩ := runs_of_outline h
  refine ⟨u, hmix, fun keeps good f hf hname => ?_⟩
  have good := (planHeader_eq_ok keeps good hheader).2.2.2
  obtain ⟨⟨copied, heq, hcopied⟩, -⟩ := Fields.addContributors_eq_ok keeps good (Planner.ask_eq_ok hfields)
  rcases List.mem_append.1 (heq ▸ hf) with hf | hf
  · exact absurd (congrArg FieldDef.name (List.mem_singleton.1 hf)) hname
  · exact (hcopied f hf).2

end Blueprint

end Amalgam
