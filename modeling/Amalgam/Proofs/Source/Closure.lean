import Amalgam.Proofs.Blueprint.Outline
import Amalgam.Proofs.Blueprint.Symbols
import Amalgam.Proofs.Literal.Record
import Amalgam.Proofs.Outcome
import Amalgam.Source.Compile

/-!
# Every symbol that the code names is there

`Blueprint.LooksUp` lists what the code of a blueprint looks up, and why. All of it is claimed when a blueprint is built
(`claimed_of_looksUp`), so it has a symbol and a name; and a blueprint whose names are all there is compiled without
a lookup that fails (`Source.avoids_compile`).
-/

namespace Amalgam

/-- Whether the value of a field is copied from its contributor. -/
def FieldDef.isCopied (f : FieldDef) : Bool :=
  f.isDescriptor || (f.default.map fun text => !isLiteral text).getD false

/-- The paths whose names the code of a blueprint contains. -/
inductive Blueprint.LooksUp (b : Blueprint) : String → Prop where
  | base : LooksUp b b.header.base
  | extraBase {path : String} : path ∈ b.header.extraBases → LooksUp b path
  | field {f : FieldDef} : f ∈ b.fields → f.isCopied = true → LooksUp b f.origin
  | reference {m : MethodDef} : m ∈ b.methods → LooksUp b m.reference
  | contributor {m : MethodDef} {target : MemberCall} :
    m ∈ b.methods → target ∈ m.core.targets → LooksUp b target.contributor
  | combinator {m : MethodDef} {f : String} {targets : List MemberCall} :
    m ∈ b.methods → m.core = .combine f targets → LooksUp b f
  | shortCircuit {m : MethodDef} {call : Advice.Call} :
    m ∈ b.methods → call ∈ m.before → call.scope = .member → LooksUp b SymbolRef.shortCircuit.path
  | replace {m : MethodDef} {call : Advice.Call} :
    m ∈ b.methods → call ∈ m.after → call.scope = .member → LooksUp b SymbolRef.replace.path
  | parameterDefault {m : MethodDef} {p : Param} {text : String} :
    m ∈ b.methods → p ∈ m.signature.params → p.default = some text → isLiteral text = false →
    LooksUp b SymbolRef.parameterDefault.path

/-! ## What is claimed -/

namespace Blueprint

/-- The function that a method combines with is found among the specs, whichever spec of its path is kept. -/
theorem combinatorClaim_eq_ok {c : Context} {m : MethodDef} {definitions : List (SymbolRef × Signature)}
    (h : m.PlannedFrom c definitions) :
    ∃ claims, combinatorClaim c.specs m = .ok claims ∧
      ∀ f targets, m.core = .combine f targets → ∃ claim ∈ claims, claim.1.path = f := by
  unfold combinatorClaim
  cases hcore : m.core with
  | call target => exact ⟨[], rfl, by simp⟩
  | combine f targets =>
    obtain ⟨spec, hspec, rfl⟩ := h.combinator f targets hcore
    have hkey : spec.function.path ∈
        (c.specs.map fun e => (e.2.function.path, e.2)).map Prod.fst := by
      rw [List.map_map]
      exact List.mem_map.2 ⟨_, Entries.mem_of_get? hspec, rfl⟩
    obtain ⟨found, hfound, hmem⟩ := Entries.exists_get?_ofList hkey
    obtain ⟨e, -, he⟩ := List.mem_map.1 hmem
    rw [Prod.mk.injEq] at he
    obtain ⟨hpath, rfl⟩ := he
    refine ⟨[(e.2.function, e.2.binding)], ?_, ?_⟩
    · simp only [specsByPath, hfound]
    · intro f' targets' hcore'
      cases hcore'
      exact ⟨_, List.mem_singleton_self _, hpath⟩

section Claims

variable {σ : Type} {Good : SymbolRef → Manifest → Prop} {p : Provider σ} {d : Defaults} {q : Request} {o : Outline} {s : σ}

/-- All symbols of a plan can be claimed. -/
theorem claimsOf_eq_ok (h : o.Sound Good q) : ∃ claims, claimsOf p d o s = .ok claims := by
  have hparts : ∀ m ∈ o.methods, ∃ part, combinatorClaim o.context.specs m = .ok part := by
    intro m hm
    obtain ⟨definitions, -, hplanned⟩ := h.methods m hm
    obtain ⟨part, hpart, -⟩ := combinatorClaim_eq_ok hplanned
    exact ⟨part, hpart⟩
  obtain ⟨parts, hparts⟩ := Outcome.exists_mapM_eq_ok hparts
  exact ⟨_, Outcome.bind_eq_ok.2 ⟨parts.flatten, Outcome.bind_eq_ok.2 ⟨parts, hparts, rfl⟩, rfl⟩⟩

variable {claims : Claims} (sound : o.Sound Good q) (hclaims : claimsOf p d o s = .ok claims)

include hclaims

theorem claimed_of_participant {r : SymbolRef} (h : r ∈ o.mix.participants ++ o.extra) : ∃ c ∈ claims, c.1.path = r.path := by
  obtain ⟨joined, -, h'⟩ := Outcome.bind_eq_ok.1 hclaims
  cases h'
  refine ⟨(r, p.binding r s), ?_, rfl⟩
  exact List.mem_append_left _ (List.mem_append_left _ (List.mem_map_of_mem h))

theorem claimed_of_support {c : SymbolRef × Option Handle} (h : c ∈ supportClaims d o.methods) :
    ∃ c' ∈ claims, c'.1.path = c.1.path := by
  obtain ⟨joined, -, h'⟩ := Outcome.bind_eq_ok.1 hclaims
  cases h'
  exact ⟨c, List.mem_append_right _ h, rfl⟩

include sound

theorem claimed_of_combinator {m : MethodDef} (hm : m ∈ o.methods) {f : String} {targets : List MemberCall}
    (hcore : m.core = .combine f targets) : ∃ c ∈ claims, c.1.path = f := by
  obtain ⟨joined, hjoined, h⟩ := Outcome.bind_eq_ok.1 hclaims
  cases h
  obtain ⟨parts, hparts, h⟩ := Outcome.bind_eq_ok.1 hjoined
  cases h
  obtain ⟨definitions, -, hplanned⟩ := sound.methods m hm
  obtain ⟨part, hpart, hcombine⟩ := combinatorClaim_eq_ok hplanned
  obtain ⟨part', hmem, heq⟩ := Outcome.exists_mem_of_forall₂ (Outcome.mapM_eq_ok.1 hparts) hm
  rw [hpart] at heq
  cases heq
  obtain ⟨claim, hclaim, hpath⟩ := hcombine f targets hcore
  refine ⟨claim, ?_, hpath⟩
  exact List.mem_append_left _ (List.mem_append_right _ (List.mem_flatten.2 ⟨part, hmem, hclaim⟩))

/-- The code of a plan looks up nothing but what the plan claims. -/
theorem claimed_of_looksUp {path : String} (h : (ofClaims o claims).LooksUp path) : ∃ c ∈ claims, c.1.path = path := by
  have hparticipant : ∀ r ∈ o.mix.participants, ∃ c ∈ claims, c.1.path = r.path := fun r hr =>
    claimed_of_participant hclaims (List.mem_append_left _ hr)
  cases h with
  | base =>
    show ∃ c ∈ claims, c.1.path = o.header.base
    rw [sound.headerBase]
    exact hparticipant _ List.mem_cons_self
  | extraBase h =>
    obtain ⟨r, hr, rfl⟩ := sound.extraBases path h
    exact claimed_of_participant hclaims (List.mem_append_right _ hr)
  | @field f hf hcopied =>
    obtain ⟨copied, hfields, horigin⟩ := sound.fields
    have hf : f ∈ o.fields := hf
    rw [hfields] at hf
    rcases List.mem_cons.1 hf with rfl | hf
    · -- The reserved field has no contributor, but its text is a literal.
      rw [FieldDef.isCopied, Fields.reserved, Option.map_some, Fields.isLiteral_metadataText] at hcopied
      cases hcopied
    · obtain ⟨-, r, hr, horigin⟩ := horigin f hf
      rw [horigin]
      exact hparticipant r hr
  | @reference m hm =>
    obtain ⟨definitions, hdefined, hplanned⟩ := sound.methods m hm
    obtain ⟨r, rest, rfl, hpath⟩ := hplanned.reference
    rw [hpath]
    exact hparticipant r (sound.members.source _ hdefined _ List.mem_cons_self).1
  | @contributor m target hm htarget =>
    obtain ⟨definitions, hdefined, hplanned⟩ := sound.methods m hm
    obtain ⟨-, d, hd, hpath⟩ := hplanned.targets target htarget
    rw [hpath]
    exact hparticipant d.1 (sound.members.source _ hdefined _ hd).1
  | @combinator m f targets hm hcore => exact claimed_of_combinator sound hclaims hm hcore
  | @shortCircuit m call hm hcall =>
    have hany : (o.methods.any fun m => !m.before.isEmpty) = true :=
      List.any_eq_true.2 ⟨m, hm, by simpa using List.ne_nil_of_mem hcall⟩
    refine claimed_of_support hclaims (c := (.shortCircuit, some d.shortCircuit)) ?_
    rw [supportClaims, if_pos hany]
    simp
  | @replace m call hm hcall =>
    have hany : (o.methods.any fun m => !m.after.isEmpty) = true :=
      List.any_eq_true.2 ⟨m, hm, by simpa using List.ne_nil_of_mem hcall⟩
    refine claimed_of_support hclaims (c := (.replace, some d.replace)) ?_
    rw [supportClaims, if_pos hany]
    simp
  | @parameterDefault m p text hm hp hdefault hliteral =>
    have hcomputed : m.hasComputedDefaults = true := by
      refine List.any_eq_true.2 ⟨p, hp, ?_⟩
      simp [hdefault, hliteral]
    have hany : o.methods.any MethodDef.hasComputedDefaults = true := List.any_eq_true.2 ⟨m, hm, hcomputed⟩
    refine claimed_of_support hclaims (c := (.parameterDefault, some d.parameterDefault)) ?_
    rw [supportClaims, if_pos hany]
    simp

end Claims

end Blueprint

/-! ## What is compiled -/

namespace Source

open Outcome (Avoids avoids_ok)

/-- The failures that tell of a name or a statement that cannot be written. -/
def TellsOfText (e : Failure) : Prop := e = .fault .badName ∨ e = .fault .badStatement

variable {b : Blueprint} {e : Failure}

theorem avoids_aliasOf {path : String} (h : path ∈ b.aliases.keys) : Avoids e (aliasOf b path) := by
  unfold aliasOf
  cases hget : b.aliases.get? path with
  | none => exact absurd h ((Entries.get?_eq_none_iff _ _).1 hget)
  | some name => exact avoids_ok _ _

section Closed

variable (other : ¬TellsOfText e)

include other

theorem avoids_nodeName (name : String) : Avoids e (nodeName name) := by
  unfold nodeName
  split
  · exact avoids_ok _ _
  · intro h
    cases h
    exact other (Or.inl rfl)

theorem avoids_readable (ok : Bool) : Avoids e (readable ok) := by
  unfold readable
  split
  · exact avoids_ok _ _
  · intro h
    cases h
    exact other (Or.inr rfl)

variable (closed : ∀ path, b.LooksUp path → path ∈ b.aliases.keys)

include closed

theorem avoids_fieldLine {f : FieldDef} (hf : f ∈ b.fields) : Avoids e (fieldLine b f) := by
  have hborrowed : f.isCopied = true → Avoids e (do
      let owner ← aliasOf b f.origin
      readable (isFieldName f.name && Text.isFreeName owner)
      return { name := f.name, value := some (.copied owner), visibility := f.visibility : FieldLine }) := by
    intro hcopied
    refine (avoids_aliasOf (closed _ (.field hf hcopied))).bind fun owner _ => ?_
    exact (avoids_readable other _).bind fun _ _ => avoids_ok _ _
  unfold fieldLine
  by_cases hdescriptor : f.isDescriptor = true
  · rw [if_pos hdescriptor]
    exact hborrowed (by rw [FieldDef.isCopied, hdescriptor, Bool.true_or])
  rw [if_neg hdescriptor]
  cases hdefault : f.default with
  | none => exact (avoids_readable other _).bind fun _ _ => avoids_ok _ _
  | some text =>
    by_cases hliteral : isLiteral text = true
    · simp only [if_pos hliteral]
      exact (avoids_readable other _).bind fun _ _ => avoids_ok _ _
    · simp only [if_neg hliteral]
      refine Avoids.bind (hborrowed ?_) fun _ _ => avoids_ok _ _
      rw [FieldDef.isCopied, hdefault, Option.map_some, Bool.eq_false_iff.2 hliteral]
      exact Bool.or_true _

section Method

variable {m : MethodDef} (hm : m ∈ b.methods)

include hm

theorem avoids_formalOf {p : Param} (hp : p ∈ m.signature.params) (function : Target) :
    Avoids e (formalOf b function p) := by
  have hdefault : Avoids e (defaultOf b function p) := by
    unfold defaultOf
    cases hd : p.default with
    | none => exact avoids_ok _ _
    | some text =>
      by_cases hliteral : isLiteral text = true
      · simp only [if_pos hliteral]
        exact (avoids_readable other _).bind fun _ _ => avoids_ok _ _
      · simp only [if_neg hliteral]
        have hpath := closed _ (.parameterDefault hm hp hd (Bool.eq_false_iff.2 hliteral))
        refine (avoids_aliasOf hpath).bind fun reader _ => ?_
        exact (avoids_readable other _).bind fun _ _ => avoids_ok _ _
  have hfor : Avoids e (defaultFor b function p) := by
    unfold defaultFor
    split
    · exact avoids_ok _ _
    · exact avoids_ok _ _
    · exact hdefault
  exact hfor.bind fun _ _ => (avoids_nodeName other p.name).bind fun _ _ => avoids_ok _ _

theorem avoids_formalsOf (receiver : Option String) : Avoids e (formalsOf b m receiver) := by
  refine (avoids_aliasOf (closed _ (.reference hm))).bind fun reference _ => ?_
  refine (Avoids.mapM fun p hp => avoids_formalOf other closed hm hp _).bind fun formals _ => ?_
  show Avoids e (if defaultsLast false (withReceiver receiver (sortFormals formals)) then _ else _)
  split
  · exact avoids_ok _ _
  · intro h
    cases h
    exact other (Or.inl rfl)

omit other in
theorem avoids_workOf (receiver : Option String) : Avoids e (workOf b m receiver) := by
  have hcall : ∀ target ∈ m.core.targets, Avoids e (contributorCall b m.signature receiver target) := by
    intro target htarget
    exact (avoids_aliasOf (closed _ (.contributor hm htarget))).bind fun _ _ => avoids_ok _ _
  unfold workOf
  cases hcore : m.core with
  | call target =>
    rw [hcore] at hcall
    exact (hcall target (List.mem_singleton_self _)).bind fun _ _ => avoids_ok _ _
  | combine f targets =>
    rw [hcore] at hcall
    refine (Avoids.mapM hcall).bind fun calls _ => ?_
    exact (avoids_aliasOf (closed _ (.combinator hm hcore))).bind fun _ _ => avoids_ok _ _

theorem avoids_bodyOf (receiver : Option String) : Avoids e (bodyOf b m receiver) := by
  have hbefore : ∀ owner, ∀ call ∈ m.before, Avoids e (beforeStmts b owner m call) := by
    intro owner call hcall
    unfold beforeStmts
    cases hscope : call.scope with
    | catchAll => exact avoids_ok _ _
    | member =>
      exact (avoids_aliasOf (closed _ (.shortCircuit hm hcall hscope))).bind fun _ _ => avoids_ok _ _
  have hafter : ∀ owner, ∀ call ∈ m.after, Avoids e (afterStmts b owner m call) := by
    intro owner call hcall
    unfold afterStmts
    cases hscope : call.scope with
    | catchAll => exact avoids_ok _ _
    | member => exact (avoids_aliasOf (closed _ (.replace hm hcall hscope))).bind fun _ _ => avoids_ok _ _
  have hreadable : ∀ body : List Stmt, Avoids e (do
      readable (body.all Stmt.isReadable)
      return body) := fun body => (avoids_readable other _).bind fun _ _ => avoids_ok _ _
  refine (avoids_workOf closed hm receiver).bind fun work _ => ?_
  split
  · refine (Avoids.mapM (hbefore _)).bind fun before _ => ?_
    exact (Avoids.mapM (hafter _)).bind fun after _ => hreadable _
  · exact hreadable _

theorem avoids_methodOf : Avoids e (methodOf b m) := by
  refine (avoids_nodeName other m.name).bind fun name _ => ?_
  refine (avoids_formalsOf other closed hm _).bind fun formals _ => ?_
  exact (avoids_bodyOf other closed hm _).bind fun _ _ => avoids_ok _ _

end Method

theorem avoids_classOf : Avoids e (classOf b) := by
  have hbase : ∀ path ∈ b.header.base :: b.header.extraBases, path ∈ b.aliases.keys := by
    intro path hpath
    rcases List.mem_cons.1 hpath with rfl | hpath
    · exact closed _ .base
    · exact closed _ (.extraBase hpath)
  refine Avoids.bind (Avoids.mapM fun path hpath => ?_) fun bases _ => ?_
  · exact (avoids_aliasOf (hbase path hpath)).bind fun _ _ => avoids_nodeName other _
  refine (Avoids.mapM fun f hf => avoids_fieldLine other closed hf).bind fun fields _ => ?_
  refine (Avoids.mapM fun m hm => avoids_methodOf other closed hm).bind fun methods _ => ?_
  exact (avoids_nodeName other b.name).bind fun _ _ => avoids_ok _ _

omit other in
/-- What keeps the class of a closed blueprint from being written is a name or a statement. -/
theorem tellsOfText_of_classOf (h : classOf b = .error e) : TellsOfText e :=
  Classical.not_not.1 fun other => avoids_classOf other closed h

omit other in
/-- No lookup fails in the code of a closed blueprint, nor in the imports of its symbols. -/
theorem avoids_compile (named : ∀ e ∈ b.symbols, e.1 ∈ b.aliases.keys) (isArtifact : Bool) :
    Avoids (.fault .key) (compile isArtifact b) := by
  have other : ¬TellsOfText (.fault .key) := by simp [TellsOfText]
  have himport : ∀ e ∈ b.symbols, Avoids (.fault .key) (importOf b e.1 e.2) := by
    intro e he
    unfold importOf
    split
    · rintro ⟨⟩
    refine (avoids_aliasOf (named e he)).bind fun _ _ => ?_
    exact (avoids_readable other _).bind fun _ _ => avoids_ok _ _
  refine (avoids_classOf other closed).bind fun cls _ => ?_
  split
  · exact (Avoids.mapM himport).bind fun _ _ => avoids_ok _ _
  · exact avoids_ok _ _

end Closed

end Source

/--
Whatever a provider answers, a blueprint that is built has a symbol and a name for each path that its code looks up, so
no lookup fails when it is compiled; and no plan lacks a combination function when its symbols are claimed.
-/
theorem Blueprint.build_closed {σ : Type} (p : Provider σ) (d : Defaults) (strict : Bool) (q : Request) (t : Planning σ) :
    (∀ b t', (build p d strict q).runFrom t = (.ok b, t') →
      (∀ path, b.LooksUp path → path ∈ b.symbols.keys ∧ path ∈ b.aliases.keys) ∧
        ∀ isArtifact, Source.compile isArtifact b ≠ .error (.fault .key)) ∧
      ∀ o u, (outline p d strict q).runFrom t = (.ok o, u) → ∃ claims, claimsOf p d o u.provider = .ok claims := by
  have hsound : ∀ o u, (outline p d strict q).runFrom t = (.ok o, u) → o.Sound (fun _ _ => True) q := fun o u ho =>
    outline_eq_ok p.keeps_trivial trivial ho
  refine ⟨?_, fun o u ho => claimsOf_eq_ok (hsound o u ho)⟩
  intro b t' hb
  obtain ⟨o, u, claims, ho, hclaims, rfl⟩ := build_eq_ok hb
  have hsymbols : ∀ path, (ofClaims o claims).LooksUp path → path ∈ (ofClaims o claims).symbols.keys := fun path h =>
    mem_keys_symbolsOf.2 (claimed_of_looksUp (hsound o u ho) hclaims h)
  have haliases : ∀ path, path ∈ (ofClaims o claims).symbols.keys → path ∈ (ofClaims o claims).aliases.keys :=
    fun path h => mem_keys_ofClaims.2 h
  refine ⟨fun path h => ⟨hsymbols path h, haliases path (hsymbols path h)⟩, ?_⟩
  refine Source.avoids_compile (fun path h => haliases path (hsymbols path h)) ?_
  exact fun e he => haliases e.1 (List.mem_map_of_mem he)

/-- Two classes that define the same member, joined by a function that is given by its path. -/
theorem Blueprint.build_closed_joined :
    ∃ b t', (build (Provider.ofManifests [⟨⟨"shop", "Cart"⟩, [{ name := "total" }], [], []⟩,
          ⟨⟨"shop", "Rebate"⟩, [{ name := "total" }, { name := "BEFORE_total" }], [], []⟩])
        ⟨.function 0, .function 1, .cls 2, .cls 3, .function 4⟩ true
        { name := "Sale", base := .text "shop:Cart", mixins := [.text "shop:Rebate"],
          combinators := [("total", .single (.text "shop:add"))], before := .one "total" }).runFrom ⟨(), []⟩ = (.ok b, t') ∧
      b.aliases.get? "shop:add" = some "add" ∧
      (∀ path, b.LooksUp path → path ∈ b.symbols.keys ∧ path ∈ b.aliases.keys) ∧
        ∀ isArtifact, Source.compile isArtifact b ≠ .error (.fault .key) := by
  generalize hrun : (build (Provider.ofManifests _) _ true _).runFrom (⟨(), []⟩ : Planning Unit) = r
  have hadd : (r.1.toOption.bind fun b => b.aliases.get? "shop:add") = some "add" := by
    rw [← hrun]
    decide +kernel
  obtain ⟨outcome, t'⟩ := r
  cases outcome with
  | error e => cases hadd
  | ok b =>
    obtain ⟨hclosed, hcompiled⟩ := (build_closed _ _ _ _ _).1 b t' hrun
    exact ⟨b, t', rfl, hadd, hclosed, hcompiled⟩

end Amalgam
