import Amalgam.Proofs.World.Evolution
import Amalgam.World.Creation

/-!
# Running code is faithful

Scripts, generated bodies and all that live objects do when they are asked or called read the modules through the names
that they hold, and set on classes nothing but what functions set (`faithful_behaviour`). So does the making of a class,
up to the hooks of its ancestors (`faithful_create`).
-/

namespace Amalgam

open Act (Faithful faithful_pure faithful_throw faithful_fail faithful_fail_bind faithful_modify faithful_report
  faithful_putSlot faithful_updateClass)
open World (Tame SameModules Evolves)

variable {S : String → Prop}

/-- Surroundings in which everything is faithful. -/
structure Surroundings.Faithful (S : String → Prop) (s : Surroundings (Act World)) : Prop where
  lookUp : ∀ name, Act.Faithful S (s.lookUp name)
  attr : ∀ v name, Act.Faithful S (s.attr v name)
  call : ∀ v args keywords, Act.Faithful S (s.call v args keywords)
  await : ∀ v, Act.Faithful S (s.await v)
  shown : ∀ v, Act.Faithful S (s.shown v)
  className : ∀ v, Act.Faithful S (s.className v)
  raise : ∀ text, Act.Faithful S (s.raise text)
  unbound : Act.Faithful S s.unbound
  unassigned : Act.Faithful S s.unassigned
  misfit : Act.Faithful S s.misfit

variable {s : Surroundings (Act World)}

theorem Surroundings.Faithful.hide (h : s.Faithful S) (names : List String) : (s.hide names).Faithful S := by
  refine { h with lookUp := fun name => ?_ }
  show Act.Faithful S (if names.contains name then s.unassigned else s.lookUp name)
  split
  · exact h.unassigned
  · exact h.lookUp name

/-! ## Scripts -/

namespace Script

theorem faithful_piece (h : s.Faithful S) (v : Value) : Faithful S (piece s v) := by
  unfold piece
  split
  · exact faithful_pure _
  · exact h.shown _

theorem faithful_pieces (h : s.Faithful S) (vs : List Value) : Faithful S (pieces s vs) := by
  induction vs with
  | nil => exact faithful_pure _
  | cons v vs ih => exact (faithful_piece h v).bind fun t => ih.bind fun ts => faithful_pure _

mutual

theorem faithful_eval (h : s.Faithful S) (receiver : Value) (env : Entries Value) :
    (e : Script) → Faithful S (eval s receiver env e)
  | .value v => by
    unfold eval
    exact faithful_pure v
  | .param name => by
    unfold eval
    split
    · exact faithful_pure _
    · exact h.unbound
  | .attr name => by
    unfold eval
    exact h.attr receiver name
  | .verdict kind e => by
    unfold eval
    exact (faithful_eval h receiver env e).bind fun v => faithful_pure _
  | .cat es => by
    unfold eval
    exact (faithful_evalAll h receiver env es).bind fun vs => (faithful_pieces h vs).bind fun ts => faithful_pure _
  | .list es => by
    unfold eval
    exact (faithful_evalAll h receiver env es).bind fun vs => faithful_pure _
  | .call name args => by
    unfold eval
    exact (h.attr receiver name).bind fun f => (faithful_evalAll h receiver env args).bind fun vs => h.call f vs []
  | .choose a b x y => by
    unfold eval
    refine (faithful_eval h receiver env a).bind fun v => (faithful_eval h receiver env b).bind fun w => ?_
    split
    · exact faithful_eval h receiver env x
    · exact faithful_eval h receiver env y
  | .className => by
    unfold eval
    exact (h.className receiver).bind fun name => faithful_pure _
  | .raise text => by
    unfold eval
    exact h.raise text

theorem faithful_evalAll (h : s.Faithful S) (receiver : Value) (env : Entries Value) :
    (es : List Script) → Faithful S (evalAll s receiver env es)
  | [] => by
    unfold evalAll
    exact faithful_pure _
  | e :: es => by
    unfold evalAll
    exact (faithful_eval h receiver env e).bind fun v => (faithful_evalAll h receiver env es).bind fun vs => faithful_pure _

end

end Script

/-! ## Generated bodies -/

namespace Source

variable (h : s.Faithful S)

include h

theorem faithful_lookUp (env : Entries Value) (name : String) : Faithful S (lookUp s env name) := by
  unfold lookUp
  split
  · exact faithful_pure _
  · exact h.lookUp name

theorem faithful_target (env : Entries Value) (t : Target) : Faithful S (t.eval s env) :=
  (faithful_lookUp h env t.head).bind fun v => Faithful.foldlM (fun v name _ => h.attr v name) v

theorem faithful_evalArgs (env : Entries Value) (vs : List Value) (ks : Entries Value) (args : List Arg) :
    Faithful S (evalArgs s env vs ks args) := by
  induction args generalizing vs ks with
  | nil => exact faithful_pure _
  | cons a args ih =>
    cases a with
    | name n => exact (faithful_lookUp h env n).bind fun v => ih _ _
    | text t => exact ih _ _
    | spread n =>
      refine (faithful_lookUp h env n).bind fun v => ?_
      split
      · exact ih _ _
      · exact faithful_pure _
    | named k n =>
      refine (faithful_lookUp h env n).bind fun v => ?_
      split
      · exact ih _ _
      · exact faithful_pure _
    | spreadNamed n =>
      refine (faithful_lookUp h env n).bind fun v => ?_
      split
      · exact ih _ _
      · exact faithful_pure _

theorem faithful_call (env : Entries Value) (c : Call) : Faithful S (c.eval s env) := by
  refine (faithful_target h env c.target).bind fun f => (faithful_evalArgs h env [] [] c.args).bind fun r => ?_
  split
  · exact h.misfit
  · refine (h.call _ _ _).bind fun v => ?_
    split
    · exact h.await v
    · exact faithful_pure v

theorem faithful_evalCalls (env : Entries Value) (cs : List Call) : Faithful S (evalCalls s env cs) := by
  induction cs with
  | nil => exact faithful_pure _
  | cons c cs ih => exact (faithful_call h env c).bind fun v => ih.bind fun vs => faithful_pure _

theorem faithful_work (env : Entries Value) (w : Work) : Faithful S (w.eval s env) := by
  cases w with
  | call c => exact faithful_call h env c
  | combine f cs =>
    exact (faithful_lookUp h env f).bind fun fv => (faithful_evalCalls h env cs).bind fun vs => h.call fv vs []

theorem faithful_isDecided (env : Entries Value) (cls : String) : Faithful S (isDecided s env cls) := by
  refine (faithful_lookUp h env _).bind fun test => (faithful_lookUp h env _).bind fun decision =>
    (faithful_lookUp h env cls).bind fun c => (h.call test [decision, c] []).bind fun v => ?_
  split <;> exact faithful_pure _

theorem faithful_run (env : Entries Value) (stmts : List Stmt) : Faithful S (run s env stmts) := by
  induction stmts generalizing env with
  | nil => exact faithful_pure _
  | cons stmt rest ih =>
    cases stmt with
    | observe c => exact (faithful_call h env c).bind fun _ => ih env
    | decide c => exact (faithful_call h env c).bind fun v => ih _
    | leaveOn cls =>
      refine (faithful_isDecided h env cls).bind fun decided => ?_
      split
      · exact (faithful_lookUp h env _).bind fun decision => h.attr decision "value"
      · exact ih env
    | keep w => exact (faithful_work h env w).bind fun v => ih _
    | replaceOn cls =>
      refine (faithful_isDecided h env cls).bind fun decided => ?_
      split
      · exact (faithful_lookUp h env _).bind fun decision => (h.attr decision "value").bind fun v => ih _
      · exact ih env
    | finish => exact faithful_lookUp h env _
    | give w => exact faithful_work h env w

theorem faithful_runBody (env : Entries Value) (body : List Stmt) : Faithful S (runBody s env body) :=
  faithful_run (h.hide _) env body

end Source

/-! ## Live objects -/

namespace World

/-- The names of a module do not depend on its file. -/
theorem names_reloaded {w : World} {ms : Array Module} {loaded : Entries Nat} (same : SameModules ms w.modules) (home : Nat) :
    ((w.reloaded ms loaded).modules[home]?).map Module.names = (w.modules[home]?).map Module.names := by
  have := congrArg (Option.map Module.names) (same home)
  rwa [Option.map_map, Option.map_map] at this

theorem name_reloaded {w : World} {ms : Array Module} {loaded : Entries Nat} (same : SameModules ms w.modules) (home : Nat) :
    ((w.reloaded ms loaded).modules[home]?).map Module.name = (w.modules[home]?).map Module.name := by
  have := congrArg (Option.map Module.name) (same home)
  rwa [Option.map_map, Option.map_map] at this

theorem global?_reloaded {w : World} {ms : Array Module} {loaded : Entries Nat} (same : SameModules ms w.modules) (home : Nat)
    (name : String) : (w.reloaded ms loaded).global? home name = w.global? home name := by
  have hget : ∀ m : Option Module, (m.bind fun m => m.names.get? name) = (m.map Module.names).bind (Entries.get? · name) := by
    intro m
    cases m <;> rfl
  unfold global?
  rw [hget, hget, names_reloaded same]

theorem faithful_settle {α : Type} (r : Except Fault α) : Faithful S (settle r) := by
  cases r with
  | ok a => exact faithful_pure a
  | error kind => exact faithful_fail kind

end World

/-- Objects that do nothing unfaithful. -/
structure Behaviour.Faithful (S : String → Prop) (b : Behaviour) : Prop where
  attr : ∀ v name, Act.Faithful S (b.attr v name)
  call : ∀ v args keywords, Act.Faithful S (b.call v args keywords)
  await : ∀ v, Act.Faithful S (b.await v)

namespace Behaviour

open World (throughClass fail settle report faithful_settle)

theorem faithful_stuck : stuck.Faithful S :=
  ⟨fun _ _ => faithful_fail _, fun _ _ _ => faithful_fail _, fun _ => faithful_fail _⟩

variable {b : Behaviour} (h : b.Faithful S)

include h

theorem faithful_surroundings (home : Option Nat) : (b.surroundings home).Faithful S where
  lookUp name := by
    refine Act.Faithful.read (fun w ms loaded same => ?_) fun w _ => ?_
    · cases home with
      | none => rfl
      | some id => simp only [Option.bind_some, World.global?_reloaded same]
    · split
      · exact faithful_pure _
      · exact faithful_fail _
  attr := h.attr
  call := h.call
  await := h.await
  shown v := Act.Faithful.read (fun _ _ _ _ => rfl) fun _ _ => faithful_pure _
  className v := by
    cases v <;> exact Act.Faithful.read (fun _ _ _ _ => rfl) fun _ _ => faithful_pure _
  raise text := faithful_throw _
  unbound := faithful_fail _
  unassigned := faithful_fail _
  misfit := faithful_fail _

omit h in
theorem faithful_setOfClass {id : Nat} {name : String} (hname : S name) (v : Value) :
    Act.Faithful S (setOfClass id name v) := by
  unfold setOfClass
  split
  · exact faithful_updateClass fun _ => ⟨fun hS => absurd hname hS, fun _ => rfl, fun _ => rfl, rfl, rfl, fun _ _ => rfl⟩
  · exact faithful_updateClass fun _ => ⟨fun _ => rfl, fun hS => absurd hname hS, fun _ => rfl, rfl, rfl, fun _ _ => rfl⟩
  · exact faithful_updateClass fun _ => ⟨fun _ => rfl, fun _ => rfl, fun hS => absurd hname hS, rfl, rfl, fun _ _ => rfl⟩
  · exact faithful_fail _
  · exact faithful_fail _
  · exact Act.Faithful.read (fun _ _ _ _ => rfl) fun w _ => faithful_putSlot hname

theorem faithful_setAttr (target : Value) {name : String} (hname : S name) (v : Value) :
    Act.Faithful S (b.setAttr target name v) := by
  refine Act.Faithful.read (fun _ _ _ _ => by cases target <;> rfl) fun w _ => ?_
  cases target with
  | cls id => exact faithful_setOfClass hname v
  | inst id =>
    dsimp only
    split
    · split
      · exact (h.call _ _ _).bind fun _ => faithful_pure _
      · exact (h.call _ _ _).bind fun _ => faithful_pure _
    · exact faithful_fail _
    · exact faithful_modify (fun _ _ _ => rfl) fun w _ => World.evolves_setAttribute w id name v
  | _ => exact faithful_fail _

theorem faithful_setAttrs {s : Surroundings (Act World)} (hs : s.Faithful S) (receiver : Value) (env : Entries Value)
    {sets : List (String × Script)} (hsets : ∀ e ∈ sets, S e.1) : Act.Faithful S (b.setAttrs s receiver env sets) := by
  induction sets with
  | nil => exact faithful_pure _
  | cons e rest ih =>
    refine (Script.faithful_eval hs receiver env e.2).bind fun v => ?_
    refine (faithful_setAttr h receiver (hsets e List.mem_cons_self) v).bind fun _ => ?_
    exact ih fun x hx => hsets x (List.mem_cons_of_mem _ hx)

theorem faithful_constructProtocol (env : Entries Value) : Act.Faithful S (b.constructProtocol env) := by
  refine Act.Faithful.read (fun _ _ _ _ => rfl) fun w tame => ?_
  split
  · dsimp only
    split
    · exact faithful_fail_bind _ _
    · split
      · split
        · exact faithful_pure _
        · exact (faithful_putSlot tame.init).bind fun _ => (h.attr _ _).bind fun f => h.call _ _ _
      · exact faithful_pure _
  · exact faithful_fail _

theorem faithful_runBody {f : Function} (hf : ∀ name ∈ f.sets, S name) (env : Entries Value) :
    Act.Faithful S (b.runBody f env) := by
  unfold runBody
  unfold Function.sets at hf
  split
  · rename_i label receiver isQuiet sets result hbody
    rw [hbody] at hf
    have hsets : ∀ e ∈ sets, S e.1 := fun e he => hf e.1 (List.mem_map_of_mem he)
    have hrest : Act.Faithful S (do
        b.setAttrs (b.surroundings none) ((receiver.bind env.get?).getD .none) env sets
        Script.eval (b.surroundings none) ((receiver.bind env.get?).getD .none) env result) :=
      (faithful_setAttrs h (faithful_surroundings h none) _ env hsets).bind fun _ =>
        Script.faithful_eval (faithful_surroundings h none) _ env result
    refine Act.Faithful.read (fun _ _ _ _ => rfl) fun w _ => ?_
    dsimp only
    split
    · exact (faithful_report _).bind fun _ => hrest
    · exact hrest
  · exact Source.faithful_runBody (faithful_surroundings h _) env _
  · exact Act.Faithful.read (fun _ _ _ _ => rfl) fun w _ => (faithful_report _).bind fun _ => faithful_settle _
  · exact faithful_pure _
  · exact Act.Faithful.read (fun _ _ _ _ => rfl) fun w _ => faithful_settle _
  · split
    · exact Act.Faithful.read (fun _ _ _ _ => rfl) fun w _ => faithful_pure _
    · exact faithful_fail _
  · split
    · exact faithful_settle _
    · exact faithful_fail _
  · exact faithful_pure _
  · exact faithful_constructProtocol h env

theorem faithful_apply (id : Nat) (args : List Value) (keywords : Entries Value) :
    Act.Faithful S (b.apply id args keywords) := by
  refine Act.Faithful.read (fun _ _ _ _ => rfl) fun w tame => ?_
  split
  · exact faithful_fail _
  · rename_i f hf
    have hsets := tame.sets f (Array.mem_of_getElem? hf)
    split
    · exact faithful_fail _
    · split
      · exact faithful_pure _
      · exact faithful_runBody h hsets _

theorem faithful_applySlot (cls : Nat) (receiver : Value) (slot : Slot) (args : List Value) (keywords : Entries Value) :
    Act.Faithful S (b.applySlot cls receiver slot args keywords) := by
  unfold applySlot
  split
  · exact faithful_apply h _ _ _
  · exact faithful_apply h _ _ _
  · exact faithful_apply h _ _ _
  · exact h.call _ _ _
  · exact h.call _ _ _
  · exact faithful_fail _

theorem faithful_construct (id : Nat) (args : List Value) (keywords : Entries Value) :
    Act.Faithful S (b.construct id args keywords) := by
  refine Act.Faithful.read (fun _ _ _ _ => rfl) fun w _ => ?_
  split
  · exact faithful_fail_bind _ _
  · dsimp only
    split
    · exact faithful_fail_bind _ _
    · refine Act.Faithful.bind (faithful_modify ?_ ?_) fun _ => ?_
      · exact fun _ _ _ => rfl
      · exact fun w _ => World.evolves_pushInstance w _
      split
      · exact faithful_pure _
      · refine (faithful_applySlot h _ _ _ _ _).bind fun v => ?_
        split
        · exact faithful_pure _
        · exact faithful_fail _

theorem faithful_instantiate (id : Nat) (args : List Value) (keywords : Entries Value) :
    Act.Faithful S (b.instantiate id args keywords) := by
  refine Act.Faithful.read (fun _ _ _ _ => rfl) fun w _ => ?_
  dsimp only
  split
  · split
    · exact faithful_pure _
    · exact faithful_fail _
  · split
    · split
      · exact faithful_pure _
      · exact faithful_fail _
    · split
      · exact faithful_construct h _ _ _
      · refine (faithful_applySlot h _ _ _ _ _).bind fun v => ?_
        split
        · refine Act.Faithful.read (fun _ _ _ _ => rfl) fun w _ => ?_
          split
          · refine (faithful_applySlot h _ _ _ _ _).bind fun v => ?_
            split
            · exact faithful_pure _
            · exact faithful_fail _
          · exact faithful_pure _
        · exact faithful_pure _

theorem faithful_throughInstance (id cls : Nat) (name : String) (slot : Slot) :
    Act.Faithful S (b.throughInstance id cls name slot) := by
  unfold throughInstance
  split
  · exact faithful_pure _
  · refine (faithful_apply h _ _ _).bind fun v => ?_
    refine Act.Faithful.bind (faithful_modify ?_ ?_) fun _ => faithful_pure _
    · exact fun _ _ _ => rfl
    · exact fun w _ => World.evolves_setAttribute w id name v
  · exact faithful_apply h _ _ _
  · exact faithful_pure _

theorem faithful_ownAttr (id : Nat) (name : String) : Act.Faithful S (b.ownAttr id name) := by
  refine Act.Faithful.read (fun _ _ _ _ => rfl) fun w _ => ?_
  dsimp only
  split
  · exact faithful_apply h _ _ _
  · exact faithful_pure _
  · exact faithful_throughInstance h _ _ _ _
  · split
    · exact faithful_pure _
    · exact faithful_pure _
    · exact faithful_pure _
    · exact faithful_fail _

theorem faithful_attrOfInstance (id : Nat) (name : String) : Act.Faithful S (b.attrOfInstance id name) := by
  refine (faithful_ownAttr h id name).tryCatch fun e => ?_
  refine Act.Faithful.read (fun _ _ _ _ => rfl) fun w _ => ?_
  dsimp only
  split
  · exact faithful_applySlot h _ _ _ _ _
  · exact faithful_throw _

/-- What holds of the objects below a level holds of the level. -/
theorem faithful_next : b.next.Faithful S where
  attr v name := by
    cases v with
    | inst id => exact faithful_attrOfInstance h id name
    | _ =>
      refine Act.Faithful.read (fun _ _ _ _ => rfl) fun w _ => ?_
      split
      · exact faithful_pure _
      · exact faithful_fail _
  call v args keywords := by
    cases v with
    | function id => exact faithful_apply h id args keywords
    | bound id receiver => exact faithful_apply h id (receiver :: args) keywords
    | cls id => exact faithful_instantiate h id args keywords
    | inst id =>
      refine Act.Faithful.read (fun _ _ _ _ => rfl) fun w _ => ?_
      dsimp only
      split
      · exact faithful_applySlot h _ _ _ _ _
      · exact faithful_fail _
    | _ => exact faithful_fail _
  await v := by
    cases v with
    | pending id env =>
      refine Act.Faithful.read (fun _ _ _ _ => rfl) fun w tame => ?_
      split
      · rename_i f hf
        exact faithful_runBody h (tame.sets f (Array.mem_of_getElem? hf)) env
      · exact faithful_fail _
    | _ => exact faithful_fail _

omit h in
theorem faithful_levels (n : Nat) : (levels n).Faithful S := by
  induction n with
  | zero => exact faithful_stuck
  | succ n ih => exact faithful_next ih

end Behaviour

theorem faithful_behaviour : behaviour.Faithful S := Behaviour.faithful_levels _

/-! ## New classes -/

namespace World

theorem faithful_enterProtocol (id : Nat) : Faithful S (enterProtocol id) := by
  refine Faithful.read (fun _ _ _ _ => rfl) fun w tame => ?_
  refine Faithful.bind (faithful_updateClass ?_) fun _ => ?_
  · exact fun _ => ⟨fun _ => rfl, fun _ => rfl, fun _ => rfl, rfl, rfl, fun _ _ => rfl⟩
  have hinit : ∀ {slot : Option Slot}, Faithful S (if slot.isNone then
      putSlot id "__init__" (.routine .ofInstance protocolInitId) else pure ()) := by
    intro slot
    split
    · exact faithful_putSlot tame.init
    · exact faithful_pure _
  have hrest : Faithful S (do
      if (w.cls id).bases.contains protocolId then
        if !(w.cls id).bases.all w.isProtocolBase then fail .type
        if (w.slot? id "__init__").isNone then putSlot id "__init__" (.routine .ofInstance protocolInitId)) := by
    split
    · dsimp only
      split
      · exact faithful_fail_bind _ _
      · exact hinit
    · exact faithful_pure _
  dsimp only
  split
  · exact (faithful_putSlot tame.hook).bind fun _ => hrest
  · exact hrest

theorem faithful_announce (id : Nat) (order : List Nat) : Faithful S (announce id order) := by
  induction order with
  | nil => exact faithful_pure _
  | cons a rest ih =>
    refine Faithful.read (fun _ _ _ _ => rfl) fun w _ => ?_
    split
    · rename_i slot _
      have hcall : Faithful S (behaviour.call (throughClass id slot) [] []) := faithful_behaviour.call _ _ _
      exact hcall.bind fun _ => faithful_pure _
    · refine ih.bind fun _ => ?_
      split
      · exact faithful_enterProtocol id
      · exact faithful_pure _

theorem faithful_complete (id : Nat) (c : Class) : Faithful S (complete id c) := by
  refine (faithful_announce id c.order.tail).bind fun _ => ?_
  split
  · refine faithful_modify (fun _ _ _ => rfl) fun w _ => evolves_modify w ?_
    exact fun _ => ⟨fun _ => rfl, fun _ => rfl, fun _ => rfl, rfl, rfl, fun _ _ => rfl⟩
  · exact faithful_pure _

theorem cls_push_of_lt {w : World} {id : Nat} (c : Class) (h : id < w.classes.size) :
    World.cls { w with classes := w.classes.push c } id = w.cls id := by
  simp only [World.cls, Array.getElem?_push_lt h, Array.getElem?_eq_getElem h]

theorem cls_push_self (w : World) (c : Class) : World.cls { w with classes := w.classes.push c } w.classes.size = c := by
  simp [World.cls]

theorem evolves_push (w : World) (c : Class) : Evolves S w { w with classes := w.classes.push c } :=
  ⟨⟨#[], by simp, by simp⟩, by simp, fun id hid => by
    rw [cls_push_of_lt c hid]
    exact Class.Keeps.refl _, fun _ _ h => h⟩

theorem faithful_create (d : Draft) : Faithful S (create d) := by
  refine Faithful.read (fun _ _ _ _ => rfl) fun w _ => ?_
  dsimp only
  split
  · exact faithful_fail_bind _ _
  · split
    · exact faithful_fail _
    · refine Faithful.bind (faithful_modify ?_ ?_) fun _ => (faithful_complete _ _).bind fun _ => faithful_pure _
      · exact fun _ _ _ => rfl
      · exact fun w _ => evolves_push w _

/-- A class is made by adding what its draft says under the next number, and completing it. -/
theorem create_shape {d : Draft} {w w' : World} {id : Nat} (h : (create d).runFrom w = (.ok id, w')) :
    id = w.classes.size ∧ ∃ order a, Linearization.order? id d.parents w.order = some order ∧
      (complete id (d.toClass w order)).runFrom { w with classes := w.classes.push (d.toClass w order) } = (.ok a, w') := by
  unfold create at h
  rw [Act.runFrom_bind, Act.runFrom_get] at h
  dsimp only at h
  split at h
  · cases h
  · split at h
    · cases h
    · rename_i order horder
      obtain ⟨_, u, hpush, h⟩ := Act.bind_eq_ok.1 h
      obtain ⟨a, v, hcomplete, hdone⟩ := Act.bind_eq_ok.1 h
      rw [Act.runFrom_modify, Prod.mk.injEq] at hpush
      rw [Act.runFrom_pure, Prod.mk.injEq, Except.ok.injEq] at hdone
      obtain ⟨-, rfl⟩ := hpush
      obtain ⟨rfl, rfl⟩ := hdone
      exact ⟨rfl, order, a, horder, hcomplete⟩

/-- A new class gets the next number, and is what its draft says as far as it may not be set. -/
theorem create_eq_ok {d : Draft} {w w' : World} {id : Nat} (tame : Tame S w) (h : (create d).runFrom w = (.ok id, w')) :
    id = w.classes.size ∧ id < w'.classes.size ∧ ∃ order, Linearization.order? id d.parents w.order = some order ∧
      (d.toClass w order).Keeps S (w'.cls id) := by
  obtain ⟨rfl, order, a, horder, hcomplete⟩ := create_shape h
  have tame' := tame.evolves (evolves_push (S := S) w (d.toClass w order))
  obtain ⟨-, hev⟩ := faithful_complete w.classes.size (d.toClass w order) _ _ [] tame' fun _ => rfl
  rw [hcomplete] at hev
  have hlt : w.classes.size < (w.classes.push (d.toClass w order)).size := by simp
  have hkeeps := hev.keeps _ hlt
  rw [cls_push_self] at hkeeps
  exact ⟨rfl, Nat.lt_of_lt_of_le hlt hev.classes, order, horder, hkeeps⟩

end World

end Amalgam
