import Amalgam.Proofs.Literal.Sound
import Amalgam.Proofs.World.Relaying
import Amalgam.Proofs.World.Retelling
import Amalgam.Proofs.World.Telling

/-!
# Parameters that code restores

What a manifest says of a method is enough to make a function with the same parameters, up to annotations: names that
are not private stay, literals are read as the values that they were written for, and all other defaults are read back
from the method itself (`World.map_bare_eq`). So a function that is generated to call a method looks like the method from
outside, behind a receiver of its own (`World.bare_params_of_formals`).
-/

namespace Amalgam

/-- A value that is written as a literal is read as the same. -/
def Value.IsSettled (v : Value) : Prop := ∀ w : World, isLiteral (w.spell v) = true →
  World.literalDefault (w.spell v) = v ∧ World.literalValue (w.spell v) = v

namespace World

/-- What a world writes for a value means it. -/
theorem means_spell (w : World) {v : Value} (sound : v.IsSound) : Literal.Means (w.spell v).toList v := by
  have angled : ∀ o t, w.speller o = some t → t.toList.head? = some '<' := by
    intro o t h
    cases o
    case cls id =>
      cases h
      simp [spellClass]
    case inst id =>
      unfold speller at h
      dsimp only at h
      split at h <;> cases h
      simp
    case property getter cached =>
      cases h
      cases cached <;> rfl
    case function | bound | pending =>
      obtain ⟨F, -, rfl⟩ := Option.map_eq_some_iff.1 h
      simp
    all_goals cases h
  unfold spell Value.spellSafely
  cases h : Value.spell? w.speller v with
  | none => exact Value.means_of_angled (by simp)
  | some t => exact Value.means_of_spell? angled v sound h

end World

/-- A value that can be told from its written form is settled. -/
theorem Value.IsSound.isSettled {v : Value} (sound : v.IsSound) : v.IsSettled := by
  intro w hliteral
  obtain ⟨u, hu⟩ := Option.isSome_iff_exists.1 hliteral
  obtain ⟨rfl, hopen⟩ := Literal.read?_of_means (w.means_spell sound) hu
  have hvalue : World.literalValue (w.spell u) = u := by rw [World.literalValue, hu, Option.getD_some]
  exact ⟨by rw [World.literalDefault, hopen]; exact hvalue, hvalue⟩

namespace Source

variable {b : Blueprint} {m : MethodDef} {c : Method}

/-- The code of a method that only calls its reference: the parameters behind the receiver, and one call that hands all on. -/
theorem methodOf_passed (hc : methodOf b m = .ok c) (legal : ParamShape.IsLegal (m.signature.params.map Param.shape))
    (plain : m.isAdvised = false) (hcore : m.core = .call ⟨m.reference, m.name⟩) :
    ∃ reference fs, b.aliases.get? m.reference = some reference ∧
      List.Forall₂ (fun p f => formalOf b (implementation reference m.signature.kind m.name) p = .ok f) m.signature.params fs ∧
      c.formals = withReceiver (receiverOf m.signature.kind) fs ∧
      (c.within b.name).body = [.give (.call (Call.within b.name
        ⟨implementation reference m.signature.kind m.name,
          (receiverOf m.signature.kind).toList.map Arg.name ++ forwardAll m.signature, m.signature.isAsync⟩))] := by
  obtain ⟨-, -, -, hformals, hbody⟩ := methodOf_eq_ok hc
  obtain ⟨reference, fs, href, hfs, -, heq⟩ := (formalsOf_eq_ok legal).1 hformals
  obtain ⟨work, hwork, hall⟩ := bodyOf_plain plain hbody
  unfold workOf at hwork
  rw [hcore] at hwork
  obtain ⟨call, hcall, hdone⟩ := Outcome.bind_eq_ok.1 hwork
  cases hdone
  obtain ⟨owner, howner, hdone⟩ := Outcome.bind_eq_ok.1 hcall
  cases hdone
  obtain rfl := Except.ok.inj (howner.symm.trans href)
  exact ⟨owner, fs, aliasOf_eq_ok.1 href, Outcome.mapM_eq_ok.1 hfs, heq, hall⟩

/-- Where no name is private, what is handed on is handed on by the same arguments inside a class. -/
theorem forwardAll_within {owner : String} {s : Signature} (stable : ∀ p ∈ s.params, Text.privateName owner p.name = p.name) :
    (forwardAll s).map (Arg.within owner) = forwardAll s := by
  unfold forwardAll
  rw [List.map_map]
  refine List.map_congr_left fun p hp => ?_
  show (forward p).within owner = forward p
  unfold forward
  split <;> simp only [Arg.within, stable p hp]

end Source

namespace World

variable {w u u' : World} {s : Scope} {b : Blueprint} {owner : String} {function : Source.Target} {id : Nat} {name : String}

/-! ## What a manifest says of a member -/

theorem paramsOf_eq (kind : MemberKind) (F : Function) : w.paramsOf kind F = (F.shown kind).map w.paramOf := by
  unfold paramsOf Function.shown
  split <;> rfl

theorem mem_of_mem_shown {F : Function} {kind : MemberKind} {q : Parameter} (hq : q ∈ F.shown kind)
    (readable : F.isReadable = true) : q ∈ F.params := by
  unfold Function.shown at hq
  rw [readable, Bool.not_true, if_neg Bool.false_ne_true] at hq
  split at hq
  · rename_i p rest hparams
    split at hq
    · exact hparams ▸ List.mem_cons_of_mem _ hq
    · exact hq
  · cases hq

/-- A parameter that a function shows with a default is found in it. -/
theorem find?_of_shown (legal : w.IsLegal) {f : Nat} {F : Function} {kind : MemberKind} {q : Parameter}
    (hF : w.function? f = some F) (hq : q ∈ F.shown kind) (hdefault : q.default ≠ none) :
    F.isReadable = true ∧ F.params.find? (·.name == q.name) = some q := by
  have readable : F.isReadable = true := by
    by_contra hunreadable
    rw [Function.shown, if_pos (by simpa using hunreadable)] at hq
    simp only [unknownParameters, List.mem_cons, List.not_mem_nil, or_false] at hq
    rcases hq with rfl | rfl <;> exact hdefault rfl
  exact ⟨readable, Parameter.find?_eq_some (legal F (Array.mem_of_getElem? hF)) (mem_of_mem_shown hq readable)⟩

/-- A member as a class finds it and as its manifest says: what is stored, its face, what is called in the end, and the
parameters that it shows. -/
structure Looks (w : World) (id : Nat) (name : String) (s : Signature) (slot : Slot) (φ : Face) (c : Value)
    (shown : List Parameter) : Prop where
  found : w.slot? id name = some slot
  face : w.face? slot = some φ
  callee : slot.callee? = some (φ.kind, c)
  kind : s.kind = φ.kind
  isAsync : s.isAsync = φ.isAsync
  params : s.params = shown.map w.paramOf
  bare : φ.params = shown.map Parameter.bare
  stored : ∀ q ∈ shown, q.default ≠ none → ∃ f F, slot = .routine φ.kind f ∧ w.function? f = some F ∧ q ∈ F.shown φ.kind

/-- A class that tells of a member finds it, and the member looks as the manifest says. -/
theorem Tells.looks (tells : w.Tells id name) {s : Signature} (hs : w.declaration? id name = some (.member s)) :
    ∃ slot φ c shown, w.Looks id name s slot φ c shown := by
  obtain ⟨kind, f, F, hslot, hF, rfl⟩ | ⟨v, hslot, rfl⟩ := tells.member hs
  · refine ⟨.routine kind f, ⟨kind, F.isAsync && !F.isWrapped, (F.shown kind).map Parameter.bare⟩, .function f, F.shown kind,
      hslot, ?_, rfl, rfl, rfl, paramsOf_eq kind F, rfl, fun q hq _ => ⟨f, F, rfl, hF, hq⟩⟩
    show (w.function? f).map _ = _
    rw [hF]
    rfl
  · refine ⟨.staticValue v, ⟨.static, false, unknownParameters⟩, v, unknownParameters, hslot, rfl, rfl, rfl, rfl, rfl, rfl, ?_⟩
    intro q hq hdefault
    simp only [unknownParameters, List.mem_cons, List.not_mem_nil, or_false] at hq
    rcases hq with rfl | rfl <;> exact absurd rfl hdefault

/-! ## Through code and back -/

/-- What code restores of a default: what it reads of a literal, and the default itself where it reads that back. -/
def restored (w : World) (v : Value) : Value := if isLiteral (w.spell v) = true then literalDefault (w.spell v) else v

theorem restored_eq_iff {v : Value} : w.restored v = v ↔ (isLiteral (w.spell v) = true → literalDefault (w.spell v) = v) := by
  unfold restored
  split
  · exact ⟨fun h _ => h, fun h => h ‹_›⟩
  · exact ⟨fun _ h => absurd h ‹_›, fun _ => rfl⟩

/-- A parameter comes back with the default that is restored, if a default that is read back comes back. -/
theorem default_eq_restored {q x : Parameter} {f : Source.Formal}
    (legal : q.kind.isVariadic = true → q.default.isSome = false)
    (hf : Source.formalOf b function (w.paramOf q) = .ok f) (hx : (s.parameter (f.within owner)).runFrom u = (.ok x, u'))
    (reads : ∀ v reader x, q.default = some v → isLiteral (w.spell v) = false → b.aliases.get? SymbolRef.parameterDefault.path = some reader →
      (s.defaultValue ((Source.Default.readBack reader function q.name).within owner)).runFrom u = (.ok x, u') → x = v) :
    x.default = q.default.map w.restored := by
  obtain ⟨-, -, -, hdefault⟩ := parameter_eq_ok hx
  have hlegal : (w.paramOf q).kind.isVariadic = true → (w.paramOf q).default.isSome = false := fun h => by
    rw [show (w.paramOf q).default = q.default.map w.spell from rfl, Option.isSome_map]
    exact legal h
  obtain ⟨-, -, -, hwrites⟩ := Source.formalOf_eq_ok hlegal hf
  have hwithin : (f.within owner).default = f.default.map (Source.Default.within owner) := rfl
  rw [hwithin] at hdefault
  have hspelled : (w.paramOf q).default = q.default.map w.spell := rfl
  rw [hspelled] at hwrites
  generalize f.default = default at hwrites hdefault
  cases hq : q.default with
  | none =>
    rw [hq] at hwrites
    cases hwrites
    obtain ⟨-, hnone⟩ | ⟨d, v, hd, -⟩ := hdefault
    · exact hnone
    · cases hd
  | some v =>
    rw [hq] at hwrites
    rw [Option.map_some, restored]
    cases hwrites with
    | literal hliteral =>
      obtain ⟨hnone, -⟩ | ⟨d, y, hd, hy, hrun⟩ := hdefault
      · cases hnone
      · cases hd
        rw [Source.Default.within, runFrom_defaultValue_literal] at hrun
        cases hrun
        rw [hy, if_pos hliteral]
    | readBack hliteral hreader =>
      obtain ⟨hnone, -⟩ | ⟨d, y, hd, hy, hrun⟩ := hdefault
      · cases hnone
      · cases hd
        rw [hy, if_neg (by rw [hliteral]; exact Bool.false_ne_true), reads v _ y hq hliteral hreader hrun]

/-- It comes back as the one that its code was written for, if its default is restored as it was. -/
theorem bare_eq {q x : Parameter} {f : Source.Formal} (legal : q.kind.isVariadic = true → q.default.isSome = false)
    (plain : Text.isPrivateName q.name = false) (settled : ∀ v ∈ q.default, v.IsSettled)
    (hf : Source.formalOf b function (w.paramOf q) = .ok f) (hx : (s.parameter (f.within owner)).runFrom u = (.ok x, u'))
    (reads : ∀ v reader x, q.default = some v → isLiteral (w.spell v) = false → b.aliases.get? SymbolRef.parameterDefault.path = some reader →
      (s.defaultValue ((Source.Default.readBack reader function q.name).within owner)).runFrom u = (.ok x, u') → x = v) :
    x.bare = q.bare := by
  obtain ⟨hname, hkind, -, -⟩ := parameter_eq_ok hx
  obtain ⟨hname', hkind', -, -⟩ := Source.formalOf_eq_ok (p := w.paramOf q) (by
    rw [show (w.paramOf q).default = q.default.map w.spell from rfl, Option.isSome_map]
    exact legal) hf
  have hvalue : x.default = q.default := by
    rw [default_eq_restored legal hf hx reads]
    cases hq : q.default with
    | none => rfl
    | some v => rw [Option.map_some, restored_eq_iff.2 fun hliteral => (settled v hq w hliteral).1]
  show Parameter.mk x.name x.kind x.default none = Parameter.mk q.name q.kind q.default none
  rw [hvalue, hname, hkind]
  show Parameter.mk (Text.privateName owner f.name) f.kind _ _ = _
  rw [hname', hkind']
  show Parameter.mk (Text.privateName owner q.name) q.kind _ _ = _
  rw [Text.privateName_of_public plain]

/-- So do parameters one by one. -/
theorem map_bare_eq {qs xs : List Parameter} {fs : List Source.Formal}
    (legal : ∀ q ∈ qs, q.kind.isVariadic = true → q.default.isSome = false)
    (plain : ∀ q ∈ qs, Text.isPrivateName q.name = false ∧ ∀ v ∈ q.default, v.IsSettled)
    (hfs : List.Forall₂ (fun p f => Source.formalOf b function p = .ok f) (qs.map w.paramOf) fs)
    (hxs : List.Forall₂ (fun f x => (s.parameter f).runFrom u = (.ok x, u)) (fs.map (·.within owner)) xs)
    (reads : ∀ q ∈ qs, ∀ v reader x, q.default = some v → isLiteral (w.spell v) = false → b.aliases.get? SymbolRef.parameterDefault.path = some reader →
      (s.defaultValue ((Source.Default.readBack reader function q.name).within owner)).runFrom u = (.ok x, u) → x = v) :
    xs.map Parameter.bare = qs.map Parameter.bare := by
  induction qs generalizing fs xs with
  | nil =>
    cases hfs
    cases hxs
    rfl
  | cons q qs ih =>
    cases hfs with
    | cons hf hfs =>
      cases hxs with
      | cons hx hxs =>
        obtain ⟨hplain, hsettled⟩ := plain q List.mem_cons_self
        rw [List.map_cons, List.map_cons, bare_eq (legal q List.mem_cons_self) hplain hsettled hf hx
          (reads q List.mem_cons_self), ih (fun q hq => legal q (List.mem_cons_of_mem _ hq))
          (fun q hq => plain q (List.mem_cons_of_mem _ hq)) hfs hxs fun q hq => reads q (List.mem_cons_of_mem _ hq)]

/-- No name of a receiver is private. -/
theorem privateName_receiver {kind : MemberKind} {receiver : String} (h : Source.receiverOf kind = some receiver) :
    Text.privateName owner receiver = receiver := by
  refine Text.privateName_eq_self ?_
  cases kind <;> cases h <;> decide

/-- Behind a receiver of its own, a function has the parameters of the face that its code was written for. -/
theorem bare_params_of_formals {φ : Face} {fs : List Source.Formal} {params : List Parameter}
    (hkinds : fs.map Source.Formal.kind = φ.params.map Parameter.kind)
    (hrest : ∀ xs, List.Forall₂ (fun f x => (s.parameter f).runFrom u = (.ok x, u)) (fs.map (·.within owner)) xs →
      xs.map Parameter.bare = φ.params)
    (h : List.Forall₂ (fun f x => (s.parameter f).runFrom u = (.ok x, u))
      ((Source.withReceiver (Source.receiverOf φ.kind) fs).map (·.within owner)) params) :
    params.map Parameter.bare = φ.formals := by
  have hany : (fs.any fun f => f.kind == .positionalOnly) = φ.params.any fun p => p.kind == .positionalOnly := by
    have hsame := congrArg (List.any · (· == ParamKind.positionalOnly)) hkinds
    simp only [List.any_map] at hsame
    exact hsame
  unfold Face.formals Face.receiver
  unfold Source.withReceiver at h
  cases hreceiver : Source.receiverOf φ.kind with
  | none =>
    rw [hreceiver] at h
    exact hrest params h
  | some receiver =>
    rw [hreceiver] at h
    cases h with
    | @cons _ x _ rest hx hxs =>
      obtain ⟨hname, hkind, -, ⟨-, hdefault⟩ | ⟨d, v, hd, -⟩⟩ := parameter_eq_ok hx
      · rw [List.map_cons, hrest rest hxs]
        show Parameter.mk x.name x.kind x.default none :: φ.params = Parameter.mk receiver _ none none :: φ.params
        rw [hname, hkind, hdefault, ← hany]
        show Parameter.mk (Text.privateName owner receiver) _ _ _ :: _ = _
        rw [privateName_receiver hreceiver]
        rfl
      · cases hd

end World

end Amalgam
