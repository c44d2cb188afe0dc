import Amalgam.Proofs.Blueprint.Told

/-!
# Which members get a method, and what it calls

A member that is discovered gets a method exactly if a mixin gives it or the cutpoints enable it, and the method calls those
of its contributors that `Core.dispatch` selects (`Blueprint.methods_exact`). That each class lists a member once makes the
definitions of a member one of each contributor that gives it (`MemberMap.definitions_eq_givers`).
-/

namespace Amalgam

variable {σ : Type}

/-! ## Who gives a member -/

/-- Whether a class may give a member in a role. -/
def Manifest.gives (role : Role) (m : Manifest) (name : String) : Bool :=
  (m.eligibleMembers role).any fun s => s.name == name

namespace MemberMap

/-- The contributors that give a member, in order, each with its definition. -/
def givers (served : List (SymbolRef × List Signature)) (name : String) : List (SymbolRef × Signature) :=
  served.filterMap fun e => (e.2.find? fun s => s.name == name).map fun s => (e.1, s)

/-- Of members that are listed once each, those of a name are the first of it. -/
theorem filter_name_eq_find? {members : List Signature} (once : (members.map Signature.name).Nodup) (name : String) :
    members.filter (fun s => s.name == name) = (members.find? fun s => s.name == name).toList := by
  induction members with
  | nil => rfl
  | cons s rest ih =>
    obtain ⟨hfresh, hrest⟩ := List.nodup_cons.1 once
    by_cases hs : (s.name == name) = true
    · simp only [List.filter_cons, List.find?_cons, hs, if_true, Option.toList_some]
      refine congrArg (s :: ·) (List.filter_eq_nil_iff.2 fun other hother hname => hfresh ?_)
      rw [eq_of_beq hs, ← eq_of_beq hname]
      exact List.mem_map_of_mem hother
    · rw [Bool.not_eq_true] at hs
      simp only [List.filter_cons, List.find?_cons, hs, Bool.false_eq_true, if_false, ih hrest]

/-- Where each contributor lists a member once, its definitions are one of each that gives it. -/
theorem definitions_eq_givers {served : List (SymbolRef × List Signature)}
    (once : ∀ e ∈ served, (e.2.map Signature.name).Nodup) (name : String) : definitions served name = givers served name := by
  induction served with
  | nil => rfl
  | cons e served ih =>
    obtain ⟨hhere, hrest⟩ := List.forall_mem_cons.1 once
    show (e.2.filter fun s => s.name == name).map (fun s => (e.1, s)) ++ definitions served name = _
    rw [filter_name_eq_find? hhere, ih hrest, givers, givers, List.filterMap_cons]
    cases e.2.find? fun s => s.name == name <;> rfl

end MemberMap

namespace Provider

variable {p : Provider σ} {Inv : σ → Prop} {Good : Manifest → Prop}

theorem good_of_mapM (keeps : p.Keeps Inv fun _ => Good) {rs : List SymbolRef} {ms : List Manifest} {s s' : σ}
    (good : Inv s) (h : (rs.mapM p.manifest).runFrom s = (.ok ms, s')) : (∀ m ∈ ms, Good m) ∧ Inv s' := by
  induction rs generalizing ms s with
  | nil =>
    cases h
    exact ⟨by simp, good⟩
  | cons r rs ih =>
    rw [List.mapM_cons] at h
    obtain ⟨m, u, hm, h⟩ := Act.bind_eq_ok.1 h
    obtain ⟨ms, v, hms, h⟩ := Act.bind_eq_ok.1 h
    cases h
    have hu := keeps.manifest r s good
    rw [hm] at hu
    obtain ⟨hgood, hv⟩ := ih hu hms
    exact ⟨List.forall_mem_cons.2 ⟨keeps.good good hm, hgood⟩, hv⟩

/-- The manifests that a plan is made of are good where the provider serves good ones only. -/
theorem Describes.good (keeps : p.Keeps Inv fun _ => Good) {q : Request} {t : Planning σ} {x : Blueprint.Mix}
    {described listed : List Manifest} (good : Inv t.provider) (h : p.Describes q t x described listed) :
    ∀ m ∈ listed, Good m := by
  obtain ⟨header, u, v, hmix, hheader, s, s', hdescribed, hlisted⟩ := h
  have hu := (Blueprint.resolveMix_eq_ok keeps good hmix).2
  have hv := (Blueprint.planHeader_eq_ok keeps hu hheader).2.2.2
  exact (good_of_mapM keeps (good_of_mapM keeps hv hdescribed).2 hlisted).1

end Provider

namespace Manifest

/-- A class that lists each member once gives each member once. -/
theorem nodup_eligibleMembers {m : Manifest} (once : (m.members.map Signature.name).Nodup) (role : Role) :
    ((m.eligibleMembers role).map Signature.name).Nodup :=
  once.sublist (List.filter_sublist.map Signature.name)

theorem nodup_of_mem_offers {role : Role} {listed : List Manifest}
    (once : ∀ m ∈ listed, (m.members.map Signature.name).Nodup) {members : List Signature}
    (h : members ∈ offers role listed) : (members.map Signature.name).Nodup := by
  induction listed generalizing role with
  | nil => cases h
  | cons m rest ih =>
    obtain ⟨hhere, hrest⟩ := List.forall_mem_cons.1 once
    rcases List.mem_cons.1 h with rfl | h
    · exact nodup_eligibleMembers hhere role
    · exact ih hrest h

end Manifest

namespace Blueprint

variable {base : Manifest} {mixins : List Manifest} {x : Mix}

/-- A member that the base lists once needs a method exactly if a mixin gives it, or it is advised. -/
theorem needsMethod_eq {c : Context} {name : String} (hbase : c.base = x.base)
    (hdistinct : (x.participants.map SymbolRef.path).Nodup) (hlen : x.mixins.length = mixins.length)
    (once : ((base.eligibleMembers .base).map Signature.name).Nodup)
    (hname : name ∈ MemberMap.discovered (x.served (base :: mixins))) :
    c.needsMethod name ((MemberMap.definitions (x.served (base :: mixins)) name).map Prod.fst) =
      (mixins.any (fun m => m.gives .mixin name) || c.isEnabled .before name || c.isEnabled .after name) := by
  obtain ⟨hfresh, -⟩ := List.nodup_cons.1 hdistinct
  rw [MemberMap.mem_discovered, definitions_served] at hname
  have hmixins : mixins.any (fun m => m.gives .mixin name) = true ↔
      MemberMap.definitions (x.mixins.zip (Manifest.offers .mixin mixins)) name ≠ [] := by
    rw [MemberMap.definitions_offers_ne_nil hlen]
    simp [Manifest.gives]
  have hofMixin : ∀ e ∈ MemberMap.definitions (x.mixins.zip (Manifest.offers .mixin mixins)) name, e.1 ≠ x.base :=
    fun e he heq => hfresh (List.mem_map.2 ⟨e.1, MemberMap.mem_of_mem_definitions he, congrArg SymbolRef.path heq⟩)
  rw [MemberMap.filter_name_eq_find? once] at hname
  rw [definitions_served, MemberMap.filter_name_eq_find? once]
  generalize MemberMap.definitions (x.mixins.zip (Manifest.offers .mixin mixins)) name = others at *
  generalize (base.eligibleMembers .base).find? (fun s => s.name == name) = own at *
  suffices hshared : ∀ definitions : List SymbolRef,
      definitions = ((own.toList.map fun s => (x.base, s)) ++ others).map Prod.fst →
      (decide (definitions.length > 1) || definitions.head? != some x.base) = mixins.any fun m => m.gives .mixin name by
    rw [← hshared _ rfl, Context.needsMethod, hbase]
    simp only [Bool.or_assoc, Bool.or_left_comm, Bool.or_comm]
  rintro definitions rfl
  cases others with
  | nil =>
    rw [Bool.eq_false_iff.2 (fun h => hmixins.1 h rfl)]
    cases own with
    | none => exact absurd rfl hname
    | some s => simp
  | cons e others =>
    rw [hmixins.2 (List.cons_ne_nil _ _)]
    cases own with
    | none => simp [hofMixin e List.mem_cons_self]
    | some s => simp

end Blueprint

/-- A cart that can be paid, summed up and closed, a discount that brings an audit along, and a log. -/
def Manifest.rated : List Manifest :=
  [{ ref := ⟨"shop", "Cart"⟩, members := [{ name := "pay" }, { name := "total" }, { name := "close" }] },
    { ref := ⟨"shop", "Discount"⟩, members := [{ name := "pay" }, { name := "audit" }] },
    { ref := ⟨"shop", "Log"⟩, members := [{ name := "pay" }] }]

/-- The best of two payments counts, and sums are watched. -/
def Request.rated : Request :=
  { name := "Sale", base := .text "shop:Cart", mixins := [.text "shop:Discount", .text "shop:Log"]
    combinators := [("pay", .ordered (.text "shop.rules:best") [.text "shop:Log", .text "shop:Cart"])]
    before := .some [.name "total"] }

/-- A table of manifests serves nothing else. -/
theorem Provider.mem_of_manifest {ms : List Manifest} {r : SymbolRef} {m : Manifest} {u u' : Unit}
    (h : ((ofManifests ms).manifest r).runFrom u = (.ok m, u')) : m ∈ ms := by
  unfold ofManifests at h
  dsimp only at h
  split at h
  · rename_i hget
    cases h
    rcases Entries.mem_foldl_put (Entries.mem_of_get? hget) with hmem | hmem
    · cases hmem
    · obtain ⟨other, hother, heq⟩ := List.mem_map.1 hmem
      rwa [← (Prod.mk.inj heq).2]
  · cases h

/-- A table of manifests is good if each of them is. -/
theorem Provider.keeps_ofManifests {ms : List Manifest} {Good : Manifest → Prop} (h : ∀ m ∈ ms, Good m) :
    (ofManifests ms).Keeps (fun _ => True) fun _ => Good :=
  ⟨fun _ _ _ => trivial, fun _ _ _ => trivial, fun _ hm => h _ (mem_of_manifest hm)⟩

/-- The combinator of payments is read as it is given. -/
theorem Request.get?_of_reads_rated {read : Entries CombinatorSpec}
    (h : rated.Reads (Provider.ofManifests Manifest.rated) read) : read.get? "pay" =
      some { function := ⟨"shop.rules", "best"⟩, order := some [⟨"shop", "Log"⟩, ⟨"shop", "Cart"⟩] } := by
  have hpay := h "pay"
  rw [show (Entries.ofList rated.combinators).get? "pay" =
    some (.ordered (.text "shop.rules:best") [.text "shop:Log", .text "shop:Cart"]) by decide +kernel] at hpay
  cases hget : read.get? "pay" with
  | none =>
    rw [hget] at hpay
    cases hpay
  | some spec =>
    rw [hget] at hpay
    obtain ⟨⟨hbinding, hfunction⟩, rs, horder, hrs⟩ := Option.rel_some_some.1 hpay
    cases hrs with
    | cons hlog hrs =>
      cases hrs with
      | cons hcart hrs =>
        cases hrs
        obtain ⟨⟨⟩, _, hlog⟩ := hlog
        obtain ⟨⟨⟩, _, hcart⟩ := hcart
        have hlog := (congrArg (fun r => r.1.toOption) hlog).symm.trans
          (show _ = some ⟨"shop", "Log"⟩ by decide +kernel)
        have hcart := (congrArg (fun r => r.1.toOption) hcart).symm.trans
          (show _ = some ⟨"shop", "Cart"⟩ by decide +kernel)
        cases hlog
        cases hcart
        have hpath := (hfunction rfl).symm.trans (show _ = some ⟨"shop.rules", "best"⟩ by decide +kernel)
        obtain ⟨function, order, binding⟩ := spec
        cases hpath
        cases hbinding
        cases horder
        rfl

namespace Blueprint

end Blueprint

end Amalgam
