import Amalgam.Proofs.Agreement
import Amalgam.Proofs.Blueprint.Outline
import Amalgam.Proofs.Source.Forwarding
import Amalgam.Proofs.World.Declaring
import Amalgam.World.Live

/-!
# Live classes give legal signatures

The language admits no function whose parameters are out of order or share a name. What a provider of live classes reads
off such functions, and remembers, are signatures of which the same is true (`keeps_live`).
-/

namespace Amalgam

/-- All functions of a world have parameter lists that the language takes. -/
def World.IsLegal (w : World) : Prop := ∀ f ∈ w.functions, ParamShape.IsLegal (f.params.map Parameter.shape)

instance (w : World) : Decidable w.IsLegal := inferInstanceAs (Decidable (∀ f ∈ w.functions, _))

/-- So do all members of a manifest. -/
def Manifest.IsLegal (m : Manifest) : Prop := ∀ s ∈ m.members, ParamShape.IsLegal (s.params.map Param.shape)

/-- And all manifests that are remembered. -/
def Roster.IsLegal (c : Roster) : Prop := ∀ e ∈ c.manifests, e.2.IsLegal

/-- In a list that the language takes, a parameter is found by its name. -/
theorem Parameter.find?_eq_some {ps : List Parameter} (legal : ParamShape.IsLegal (ps.map shape)) {q : Parameter}
    (hq : q ∈ ps) : ps.find? (·.name == q.name) = some q := by
  have hnodup : (ps.map name).Nodup := by
    have := legal.distinct
    rwa [List.map_map] at this
  cases hfind : ps.find? (·.name == q.name) with
  | none => simpa using List.find?_eq_none.1 hfind q hq
  | some q' =>
    have hname : q'.name = q.name := by simpa using List.find?_some hfind
    rw [List.inj_on_of_nodup_map hnodup (List.mem_of_find?_eq_some hfind) hq hname]

namespace World

variable {w : World}

theorem shape_paramOf (p : Parameter) : (w.paramOf p).shape = p.shape := by
  show ParamShape.mk p.name p.kind (p.default.map w.spell).isSome = _
  rw [Option.isSome_map]
  rfl

theorem isLegal_unknownParams : ParamShape.IsLegal (unknownParams.map Param.shape) :=
  ⟨by decide, by decide, by decide⟩

/-- A method keeps its parameters, but for the receiver. -/
theorem isLegal_paramsOf {f : Function} (legal : ParamShape.IsLegal (f.params.map Parameter.shape)) (kind : MemberKind) :
    ParamShape.IsLegal ((w.paramsOf kind f).map Param.shape) := by
  have hmap : ∀ ps : List Parameter, (ps.map w.paramOf).map Param.shape = ps.map Parameter.shape := by
    intro ps
    rw [List.map_map]
    exact List.map_congr_left fun p _ => shape_paramOf p
  unfold paramsOf
  split
  · exact isLegal_unknownParams
  rw [hmap]
  split
  · rename_i p rest hparams
    split
    · rw [hparams] at legal
      exact legal.tail
    · exact legal
  · rename_i hparams
    rw [hparams] at legal
    exact legal

theorem isLegal_declared (legal : w.IsLegal) {owners : List String} {c : Class} {name : String} {s : Signature}
    (h : w.declared owners c name = .member s) : ParamShape.IsLegal (s.params.map Param.shape) := by
  unfold declared fieldOf at h
  cases hslot : c.slots.get? name with
  | none =>
    rw [hslot] at h
    cases hhint : c.hints.get? name with
    | none =>
      rw [hhint] at h
      cases h
    | some hint =>
      rw [hhint] at h
      by_cases hspecial : isSpecialName name = true
      · have h := (if_pos hspecial).symm.trans h
        cases h
      · have h := (if_neg hspecial).symm.trans h
        cases h
  | some slot =>
    rw [hslot] at h
    cases slot with
    | routine kind id =>
      cases hf : w.function? id with
      | none =>
        simp only [hf] at h
        cases h
      | some f =>
        simp only [hf] at h
        cases h
        exact isLegal_paramsOf (legal f (Array.mem_of_getElem? hf)) _
    | staticValue v =>
      cases h
      exact isLegal_unknownParams
    | value v =>
      by_cases hspecial : (name != reservedField && isSpecialName name) = true
      · have h := (if_pos hspecial).symm.trans h
        cases h
      · have h := (if_neg hspecial).symm.trans h
        cases h
    | descriptor =>
      dsimp only at h
      split at h <;> cases h

/-- The manifest of a class has legal members, wherever in its line they are declared. -/
theorem isLegal_inspect (legal : w.IsLegal) (id : Nat) (ref : SymbolRef) (sets : List SymbolRef) :
    (w.inspect id ref sets).IsLegal := by
  intro s hs
  obtain ⟨-, a, -, hdeclared⟩ := exists_declared_of_declaration? (mem_members_inspect.1 hs)
  exact isLegal_declared legal hdeclared

end World

namespace Roster

variable {w : World} {c : Roster}

theorem IsLegal.of_manifests {c' : Roster} (h : c.IsLegal) (heq : c'.manifests = c.manifests) : c'.IsLegal := by
  unfold IsLegal
  rw [heq]
  exact h

open Act (Keeps keeps_pure)

theorem keeps_claim (w : World) (id : Nat) : Keeps IsLegal (claim w id) := fun _ h => h.of_manifests rfl

theorem keeps_find (w : World) (r : SymbolRef) : Keeps IsLegal (find w r) := by
  intro c h
  refine h.of_manifests ?_
  unfold find
  rw [Act.runFrom_bind, Act.runFrom_get]
  dsimp only
  cases c.classes.get? r.path with
  | some id => rfl
  | none =>
    show Roster.manifests (Act.runFrom (_ >>= _) c).2 = _
    rw [Act.runFrom_bind, Act.runFrom_ofExcept]
    cases w.importSymbol r with
    | error e => rfl
    | ok v => cases v <;> rfl

theorem keeps_resolve (w : World) (t : TypeLike) : Keeps IsLegal (resolve w t) := by
  cases t with
  | text path =>
    refine Keeps.bind ?_ fun r => (keeps_find w r).bind fun _ => keeps_pure r
    intro c h
    unfold Provider.parse
    cases SymbolRef.parse? path <;> exact h
  | ref r => exact (keeps_find w r).bind fun _ => keeps_pure r
  | live id r => exact keeps_claim w id
  | other shown => exact fun c h => h

/-- What is read off a class is remembered. -/
theorem manifest_eq_ok {c' : Roster} {r : SymbolRef} {m : Manifest} (h : (manifest w r).runFrom c = (.ok m, c')) :
    (∃ path, (path, m) ∈ c.manifests) ∨ ∃ id sets, m = w.inspect id r sets := by
  obtain ⟨found, u, hget, h⟩ := Act.bind_eq_ok.1 h
  cases hget
  cases hfound : c.manifests.get? r.path with
  | some m' =>
    rw [hfound] at h
    cases h
    exact Or.inl ⟨_, Entries.mem_of_get? hfound⟩
  | none =>
    rw [hfound] at h
    obtain ⟨id, v, -, h⟩ := Act.bind_eq_ok.1 h
    obtain ⟨sets, x, -, h⟩ := Act.bind_eq_ok.1 h
    obtain ⟨_, y, -, h⟩ := Act.bind_eq_ok.1 h
    cases h
    exact Or.inr ⟨id, sets, rfl⟩

theorem keeps_manifest (legal : w.IsLegal) (r : SymbolRef) : Keeps IsLegal (manifest w r) := by
  have hread : Keeps IsLegal (do
      let id ← find w r
      let sets ← (w.capabilityAncestors id).mapM (claim w)
      let m := w.inspect id r sets
      modify fun c => { c with manifests := c.manifests.put r.path m }
      return m) := by
    refine (keeps_find w r).bind fun id => (Keeps.mapM fun id' _ => keeps_claim w id').bind fun sets => ?_
    refine Keeps.bind (fun c h e he => ?_) fun _ => keeps_pure _
    rcases Entries.mem_put he with he | rfl
    · exact h e he
    · exact World.isLegal_inspect legal id r sets
  intro c h
  unfold manifest
  rw [Act.runFrom_bind, Act.runFrom_get]
  dsimp only
  cases c.manifests.get? r.path with
  | some m => exact h
  | none => exact hread c h

end Roster

/-- A provider of live classes serves legal manifests, and remembers no others. -/
theorem Provider.keeps_live {w : World} (legal : w.IsLegal) :
    (Provider.live w).Keeps Roster.IsLegal fun _ => Manifest.IsLegal where
  resolve := Roster.keeps_resolve w
  manifest := Roster.keeps_manifest legal
  good := by
    intro r c m c' h hm
    rcases Roster.manifest_eq_ok hm with ⟨path, hmem⟩ | ⟨id, sets, rfl⟩
    · exact h _ hmem
    · exact World.isLegal_inspect legal id r sets

end Amalgam
