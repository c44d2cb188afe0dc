import Amalgam.Proofs.Source.Placing
import Amalgam.Proofs.Source.Body
import Amalgam.Proofs.Source.Prelude
import Amalgam.Source.Print

/-!
# Literals in the code of a blueprint

Beside a blueprint stands the one with zeros in place of all its literals (`Blueprint.zeroed`): its code is the same but for the
literals, as long as these begin where they can be put (`Source.compile_zeroed`). Where they are, they are read as their own
values, with the exceptions that `Source.literals_stand_iff` names.
-/

namespace Amalgam

open Source (Compiled compile)

/-! ## Blueprints with plain literals -/

/-- A default with a plain literal in place of a literal. -/
def zeroDefault (text : String) : String := if isLiteral text then "0" else text

/-- The parameter with a plain literal for its default. -/
def Param.zeroed (p : Param) : Param := { p with default := p.default.map zeroDefault }

/-- The signature with plain literals for defaults. -/
def Signature.zeroed (s : Signature) : Signature := { s with params := s.params.map Param.zeroed }

/-- The method with plain literals for defaults. -/
def MethodDef.zeroed (m : MethodDef) : MethodDef := { m with signature := m.signature.zeroed }

/-- The field with a plain literal for its value. -/
def FieldDef.zeroed (f : FieldDef) : FieldDef := { f with default := f.default.map zeroDefault }

/-- The blueprint with a plain literal in place of each literal. -/
def Blueprint.zeroed (b : Blueprint) : Blueprint :=
  { b with fields := b.fields.map FieldDef.zeroed, methods := b.methods.map MethodDef.zeroed }

/-- A field that is given a value by its default. -/
def FieldDef.IsGiven (f : FieldDef) (text : String) : Prop := f.isDescriptor = false ∧ f.default = some text

/-- A parameter whose default is written: those that take any number of arguments have none. -/
def Param.IsGiven (p : Param) (text : String) : Prop := p.kind.isVariadic = false ∧ p.default = some text

namespace Source

open Layout

/-- The field's literal can be put into code. -/
def PlacesField (f : FieldDef) : Prop := ∀ text, f.IsGiven text → isLiteral text = true → beginsOnLine text = true

/-- The parameter's literal can be put into code. -/
def PlacesParam (p : Param) : Prop := ∀ text, p.IsGiven text → isLiteral text = true → beginsFlush text = true

/-- Each literal begins where it can be put into code: on its first line as the value of a field, without a blank as a default. -/
structure PlacesLiterals (b : Blueprint) : Prop where
  fields : ∀ f ∈ b.fields, PlacesField f
  params : ∀ m ∈ b.methods, ∀ p ∈ m.signature.params, PlacesParam p

def Default.zeroed : Default → Default
  | literal text => .literal (zeroDefault text)
  | readBack reader function param => .readBack reader function param

def Formal.zeroed (f : Formal) : Formal := { f with default := f.default.map Default.zeroed }

def Method.zeroed (m : Method) : Method := { m with formals := m.formals.map Formal.zeroed }

def Init.zeroed : Init → Init
  | literal text => .literal (zeroDefault text)
  | copied owner => .copied owner

def FieldLine.zeroed (l : FieldLine) : FieldLine := { l with value := l.value.map Init.zeroed }

def Class.zeroed (c : Class) : Class :=
  { c with fields := c.fields.map FieldLine.zeroed, methods := c.methods.map Method.zeroed }

/-- The code with a plain literal in place of each literal. -/
def Code.zeroed (c : Code) : Code := { c with cls := c.cls.zeroed }

theorem isLiteral_zeroed : isLiteral "0" = true := by decide +kernel

theorem zeroDefault_literal {text : String} (h : isLiteral text = true) : zeroDefault text = "0" := if_pos h

theorem zeroDefault_of_not {text : String} (h : isLiteral text = false) : zeroDefault text = text :=
  if_neg (by rw [h]; exact Bool.false_ne_true)

theorem isLiteral_zeroDefault (text : String) : isLiteral (zeroDefault text) = isLiteral text := by
  cases h : isLiteral text with
  | true => rw [zeroDefault_literal h, isLiteral_zeroed]
  | false => rw [zeroDefault_of_not h, h]

theorem isSome_fieldText?_zeroed : (fieldText? "0").isSome = true := by decide +kernel

theorem isSome_paramText?_zeroed : (paramText? "0").isSome = true := by decide +kernel

variable {b : Blueprint}

theorem isSome_fieldText?_of_literal {text : String} (h : isLiteral text = true) : (fieldText? text).isSome = beginsOnLine text := by
  obtain ⟨v, hv⟩ := Option.isSome_iff_exists.1 h
  exact isSome_fieldText? hv

theorem isSome_paramText?_of_literal {text : String} (h : isLiteral text = true) : (paramText? text).isSome = beginsFlush text := by
  obtain ⟨v, hv⟩ := Option.isSome_iff_exists.1 h
  exact isSome_paramText? hv

/-! ## Fields -/

theorem fieldLine_zeroed {f : FieldDef} (h : PlacesField f) : fieldLine b.zeroed f.zeroed = (fieldLine b f).map FieldLine.zeroed := by
  unfold fieldLine
  cases hdescriptor : f.isDescriptor with
  | true =>
    show (if f.isDescriptor = true then _ else _) = _
    rw [hdescriptor]
    show (aliasOf b f.origin >>= _) = Except.map _ (aliasOf b f.origin >>= _)
    rw [Outcome.map_bind]
    refine bind_congr fun owner => ?_
    rw [Outcome.map_bind]
    rfl
  | false =>
    rw [show f.zeroed.isDescriptor = false from hdescriptor]
    cases hdefault : f.default with
    | none =>
      rw [show f.zeroed.default = none from congrArg (Option.map zeroDefault) hdefault]
      show (readable _ >>= _) = Except.map _ (readable _ >>= _)
      rw [Outcome.map_bind]
      rfl
    | some text =>
      rw [show f.zeroed.default = some (zeroDefault text) from congrArg (Option.map zeroDefault) hdefault]
      simp only [isLiteral_zeroDefault]
      cases hliteral : isLiteral text with
      | true =>
        have hplace : (fieldText? (zeroDefault text)).isSome = (fieldText? text).isSome := by
          rw [zeroDefault_literal hliteral, isSome_fieldText?_zeroed, isSome_fieldText?_of_literal hliteral]
          exact (h text ⟨hdescriptor, hdefault⟩ hliteral).symm
        rw [hplace]
        show (readable _ >>= _) = Except.map _ (readable _ >>= _)
        rw [Outcome.map_bind]
        rfl
      | false =>
        show (aliasOf b f.origin >>= _) >>= _ = Except.map _ ((aliasOf b f.origin >>= _) >>= _)
        rw [Outcome.map_bind, bind_assoc, bind_assoc]
        refine bind_congr fun owner => ?_
        rw [bind_assoc, bind_assoc]
        rfl

theorem placesField_of_fieldLine {f : FieldDef} {line : FieldLine} (h : fieldLine b f = .ok line) : PlacesField f := by
  rintro text ⟨hdescriptor, hdefault⟩ hliteral
  unfold fieldLine at h
  rw [hdescriptor, if_neg Bool.false_ne_true, hdefault] at h
  dsimp only at h
  rw [if_pos hliteral] at h
  obtain ⟨_, hreadable, -⟩ := Outcome.bind_eq_ok.1 h
  unfold readable at hreadable
  split at hreadable
  · rename_i hok
    rw [← isSome_fieldText?_of_literal hliteral]
    exact (Bool.and_eq_true_iff.1 hok).2
  · cases hreadable

/-! ## Parameters -/

theorem defaultFor_eq {function : Target} {p : Param} (h : p.kind.isVariadic = false) :
    defaultFor b function p = defaultOf b function p := by
  unfold defaultFor
  cases hkind : p.kind <;> rw [hkind] at h <;> first | rfl | cases h

theorem defaultOf_zeroed (function : Target) {p : Param} (h : PlacesParam p) (hpositional : p.kind.isVariadic = false) :
    defaultOf b.zeroed function p.zeroed = (defaultOf b function p).map (Option.map Default.zeroed) := by
  unfold defaultOf
  cases hdefault : p.default with
  | none =>
    rw [show p.zeroed.default = none from congrArg (Option.map zeroDefault) hdefault]
    rfl
  | some text =>
    rw [show p.zeroed.default = some (zeroDefault text) from congrArg (Option.map zeroDefault) hdefault]
    simp only [isLiteral_zeroDefault]
    cases hliteral : isLiteral text with
    | true =>
      have hplace : (paramText? (zeroDefault text)).isSome = (paramText? text).isSome := by
        rw [zeroDefault_literal hliteral, isSome_paramText?_zeroed, isSome_paramText?_of_literal hliteral]
        exact (h text ⟨hpositional, hdefault⟩ hliteral).symm
      rw [hplace]
      show (readable _ >>= _) = Except.map _ (readable _ >>= _)
      rw [Outcome.map_bind]
      rfl
    | false =>
      show (aliasOf b _ >>= _) = Except.map _ (aliasOf b _ >>= _)
      rw [Outcome.map_bind]
      refine bind_congr fun reader => ?_
      rw [Outcome.map_bind]
      rfl

theorem defaultFor_zeroed (function : Target) {p : Param} (h : PlacesParam p) :
    defaultFor b.zeroed function p.zeroed = (defaultFor b function p).map (Option.map Default.zeroed) := by
  unfold defaultFor
  rw [show p.zeroed.kind = p.kind from rfl]
  cases hkind : p.kind
  case varPositional => rfl
  case varKeyword => rfl
  all_goals exact defaultOf_zeroed function h (by rw [hkind]; rfl)

theorem formalOf_zeroed (function : Target) {p : Param} (h : PlacesParam p) :
    formalOf b.zeroed function p.zeroed = (formalOf b function p).map Formal.zeroed := by
  unfold formalOf
  rw [defaultFor_zeroed function h, Outcome.map_bind]
  cases defaultFor b function p with
  | error e => rfl
  | ok default =>
    show (nodeName p.name >>= _) = Except.map _ (nodeName p.name >>= _)
    rw [Outcome.map_bind]
    rfl

/-- A parameter that can be written has its literal where it can be put. -/
theorem placesParam_of_formalOf {function : Target} {p : Param} {f : Formal} (h : formalOf b function p = .ok f) : PlacesParam p := by
  rintro text ⟨hpositional, hdefault⟩ hliteral
  obtain ⟨default, hread, -⟩ := Outcome.bind_eq_ok.1 h
  rw [defaultFor_eq hpositional] at hread
  unfold defaultOf at hread
  rw [hdefault] at hread
  dsimp only at hread
  rw [if_pos hliteral] at hread
  obtain ⟨_, hreadable, -⟩ := Outcome.bind_eq_ok.1 hread
  rw [← isSome_paramText?_of_literal hliteral]
  unfold readable at hreadable
  split at hreadable
  · assumption
  · cases hreadable

/-! ## Methods -/

theorem sortFormals_zeroed (fs : List Formal) : sortFormals (fs.map Formal.zeroed) = (sortFormals fs).map Formal.zeroed := by
  have hfilter (kind : ParamKind) :
      (fs.map Formal.zeroed).filter (fun f => f.kind == kind) = (fs.filter fun f => f.kind == kind).map Formal.zeroed := List.filter_map
  have hlast (gs : List Formal) : (gs.map Formal.zeroed).getLast?.toList = gs.getLast?.toList.map Formal.zeroed := by
    rw [List.getLast?_map]
    cases gs.getLast? <;> rfl
  unfold sortFormals
  simp only [hfilter, hlast, List.map_append]

theorem withReceiver_zeroed (receiver : Option String) (fs : List Formal) :
    withReceiver receiver (fs.map Formal.zeroed) = (withReceiver receiver fs).map Formal.zeroed := by
  cases receiver with
  | none => rfl
  | some name =>
    unfold withReceiver
    rw [List.any_map]
    rfl

theorem defaultsLast_zeroed (seen : Bool) (fs : List Formal) : defaultsLast seen (fs.map Formal.zeroed) = defaultsLast seen fs := by
  induction fs generalizing seen with
  | nil => rfl
  | cons f fs ih =>
    rw [List.map_cons, defaultsLast, defaultsLast, ih, ih]
    rw [show f.zeroed.isPositional = f.isPositional from rfl, show f.zeroed.default.isSome = f.default.isSome from Option.isSome_map]

section Method

variable {m : MethodDef} (h : ∀ p ∈ m.signature.params, PlacesParam p) (receiver : Option String)

include h

theorem formalsOf_zeroed : formalsOf b.zeroed m.zeroed receiver = (formalsOf b m receiver).map (List.map Formal.zeroed) := by
  unfold formalsOf
  show (aliasOf b m.reference >>= _) = _
  rw [Outcome.map_bind]
  refine bind_congr fun reference => ?_
  show ((m.signature.params.map Param.zeroed).mapM (formalOf b.zeroed (implementation reference m.signature.kind m.name)) >>= _) = _
  rw [Outcome.mapM_map (m.signature.params) fun p hp => formalOf_zeroed _ (h p hp), Outcome.map_bind]
  cases m.signature.params.mapM (formalOf b (implementation reference m.signature.kind m.name)) with
  | error e => rfl
  | ok fs =>
    show (if defaultsLast false (withReceiver receiver (sortFormals (fs.map Formal.zeroed))) = true then _ else _) =
      Except.map _ (if _ then _ else _)
    rw [sortFormals_zeroed, withReceiver_zeroed, defaultsLast_zeroed]
    split <;> rfl

omit h in
theorem bodyOf_zeroed : bodyOf b.zeroed m.zeroed receiver = bodyOf b m receiver := by
  have hforward : forwardAll m.zeroed.signature = forwardAll m.signature := by
    unfold forwardAll
    show (m.signature.params.map Param.zeroed).map forward = _
    rw [List.map_map]
    rfl
  unfold bodyOf workOf contributorCall beforeStmts afterStmts
  rw [hforward]
  rfl

theorem methodOf_zeroed : methodOf b.zeroed m.zeroed = (methodOf b m).map Method.zeroed := by
  unfold methodOf
  show (nodeName m.name >>= _) = _
  rw [Outcome.map_bind]
  refine bind_congr fun name => ?_
  show (formalsOf b.zeroed m.zeroed _ >>= _) = _
  rw [formalsOf_zeroed h, Outcome.map_bind]
  show _ = formalsOf b m (receiverOf m.signature.kind) >>= _
  rw [show m.zeroed.signature.kind = m.signature.kind from rfl]
  cases formalsOf b m (receiverOf m.signature.kind) with
  | error e => rfl
  | ok formals =>
    show (bodyOf b.zeroed m.zeroed _ >>= _) = Except.map _ (bodyOf b m _ >>= _)
    rw [bodyOf_zeroed, Outcome.map_bind]
    rfl

end Method

theorem placesParam_of_methodOf {m : MethodDef} {c : Method} (h : methodOf b m = .ok c) : ∀ p ∈ m.signature.params, PlacesParam p := by
  intro p hp
  obtain ⟨-, -, -, hformals, -⟩ := methodOf_eq_ok h
  obtain ⟨reference, -, hformals⟩ := Outcome.bind_eq_ok.1 hformals
  obtain ⟨fs, hfs, -⟩ := Outcome.bind_eq_ok.1 hformals
  obtain ⟨f, -, hf⟩ := Outcome.exists_mem_of_forall₂ (Outcome.mapM_eq_ok.1 hfs) hp
  exact placesParam_of_formalOf hf

/-! ## Code -/

theorem placesLiterals_of_compile {isArtifact : Bool} {code : Code} (h : compile isArtifact b = .ok code) : PlacesLiterals b := by
  obtain ⟨hfields, hmethods, -⟩ := classOf_eq_ok (classOf_of_compile h)
  refine ⟨fun f hf => ?_, fun m hm => ?_⟩
  · obtain ⟨line, -, hline⟩ := Outcome.exists_mem_of_forall₂ (Outcome.mapM_eq_ok.1 hfields) hf
    exact placesField_of_fieldLine hline
  · obtain ⟨c, -, hc⟩ := Outcome.exists_mem_of_forall₂ (Outcome.mapM_eq_ok.1 hmethods) hm
    exact placesParam_of_methodOf hc

/-- With literals where they can be put, plain ones in their place change no more of the code than the literals. -/
theorem compile_zeroed (h : PlacesLiterals b) (isArtifact : Bool) : compile isArtifact b.zeroed = (compile isArtifact b).map Code.zeroed := by
  have hclass : classOf b.zeroed = (classOf b).map Class.zeroed := by
    unfold classOf
    show (List.mapM _ (b.header.base :: b.header.extraBases) >>= _) = _
    rw [Outcome.map_bind]
    refine bind_congr fun bases => ?_
    show ((b.fields.map FieldDef.zeroed).mapM _ >>= _) = _
    rw [Outcome.mapM_map b.fields fun f hf => fieldLine_zeroed (h.fields f hf), Outcome.map_bind]
    cases b.fields.mapM (fieldLine b) with
    | error e => rfl
    | ok fields =>
      show ((b.methods.map MethodDef.zeroed).mapM _ >>= _) = Except.map _ (_ >>= _)
      rw [Outcome.mapM_map b.methods fun m hm => methodOf_zeroed (h.params m hm), Outcome.map_bind]
      cases b.methods.mapM (methodOf b) with
      | error e => rfl
      | ok methods =>
        show (nodeName b.name >>= _) = Except.map _ (nodeName b.name >>= _)
        rw [Outcome.map_bind]
        rfl
  unfold compile
  rw [hclass, Outcome.map_bind]
  cases classOf b with
  | error e => rfl
  | ok cls =>
    cases isArtifact with
    | false => rfl
    | true =>
      show (b.symbols.mapM _ >>= _) = Except.map _ (b.symbols.mapM _ >>= _)
      rw [Outcome.map_bind]
      rfl

/-! ## Where literals are written -/

/-- The hint behind the name of a field or a parameter. -/
def annotation (hint : Option String) : String := (hint.map fun h => ": " ++ Text.Quoted.quote h).getD ""

/-- A literal whose line would be continued behind it by the next one: it ends with a backslash and a carriage return. -/
def GoesOn (text : String) : Prop := ∃ value tail, fieldText? text = some (value, tail) ∧ ['\\', '\r'] <:+ tail.toList

theorem fieldLine_of_given {f : FieldDef} {line : FieldLine} {text : String} (h : fieldLine b f = .ok line) (hgiven : f.IsGiven text)
    (hliteral : isLiteral text = true) : line =
      { name := f.name, hint := f.hint.map Text.Quoted.quote, value := some (.literal text), visibility := f.visibility } := by
  obtain ⟨hdescriptor, hdefault⟩ := hgiven
  unfold fieldLine at h
  rw [hdescriptor, if_neg Bool.false_ne_true, hdefault] at h
  dsimp only at h
  rw [if_pos hliteral] at h
  obtain ⟨_, -, h⟩ := Outcome.bind_eq_ok.1 h
  cases h
  rfl

/-- What the line of a field shows behind its name and its hint. -/
theorem print_of_given {f : FieldDef} {line : FieldLine} {text value tail : String} (h : fieldLine b f = .ok line) (hgiven : f.IsGiven text)
    (hliteral : isLiteral text = true) (htext : fieldText? text = some (value, tail)) : line.print =
      f.name ++ annotation f.hint ++ " = " ++ (value ++ match f.visibility with | .free => tail | v => "  # was " ++ v.text) := by
  rw [fieldLine_of_given h hgiven hliteral]
  unfold FieldLine.print Init.print annotation
  dsimp only
  rw [htext, Option.map_map]
  cases f.visibility <;> simp only [Option.getD_some, String.append_assoc, Function.comp_def]

/-- The value of a field is read on its line as the literal's, unless the line is continued behind it. -/
theorem readsLine_iff {text value tail : String} {v : Value} (hread : Literal.read? text = some v)
    (htext : fieldText? text = some (value, tail)) (visibility : Visibility) :
    ReadsLine (value ++ match visibility with | .free => tail | u => "  # was " ++ u.text).toList v ↔
      (visibility = .free → ¬GoesOn text) := by
  have hgoes : GoesOn text ↔ ['\\', '\r'] <:+ tail.toList := by
    constructor
    · rintro ⟨value', tail', heq, htail⟩
      obtain ⟨-, rfl⟩ := Prod.mk.inj (Option.some.inj (htext.symm.trans heq))
      exact htail
    · exact fun htail => ⟨value, tail, htext, htail⟩
  rw [hgoes, String.toList_append]
  cases visibility with
  | free => exact (readsLine_fieldText_iff hread htext).trans ⟨fun h _ => h, fun h => h rfl⟩
  | guarded =>
    exact iff_of_true (readsLine_of_remark hread htext (exists_remark_visibility .guarded)) fun h => by cases h
  | hidden =>
    exact iff_of_true (readsLine_of_remark hread htext (exists_remark_visibility .hidden)) fun h => by cases h

theorem mem_lines_of_field {code : Code} {line : FieldLine} (h : line ∈ code.cls.fields) : "    " ++ line.print ∈ code.lines := by
  unfold Code.lines Class.print
  have hbody : line.print ∈ code.cls.fields.map FieldLine.print ++ code.cls.methods.flatMap Method.print :=
    List.mem_append_left _ (List.mem_map_of_mem h)
  refine List.mem_append_right _ (List.mem_cons_of_mem _ (List.mem_map_of_mem ?_))
  rw [if_neg (by
    rw [List.isEmpty_iff]
    exact List.ne_nil_of_mem hbody)]
  exact hbody

theorem mem_lines_of_method {code : Code} {c : Method} (h : c ∈ code.cls.methods) {line : String} (hline : line ∈ c.print) :
    "    " ++ line ∈ code.lines := by
  unfold Code.lines Class.print
  have hbody : line ∈ code.cls.fields.map FieldLine.print ++ code.cls.methods.flatMap Method.print :=
    List.mem_append_right _ (List.mem_flatMap.2 ⟨c, h, hline⟩)
  refine List.mem_append_right _ (List.mem_cons_of_mem _ (List.mem_map_of_mem ?_))
  rw [if_neg (by
    rw [List.isEmpty_iff]
    exact List.ne_nil_of_mem hbody)]
  exact hbody

/-- An item of a list that is written with commas ends in front of a comma, or with the list. -/
theorem exists_of_intercalate {x : String} {xs : List String} (h : x ∈ xs) : ∃ front behind,
    String.intercalate ", " xs = front ++ x ++ behind ∧ (behind = "" ∨ ∃ more, behind = ", " ++ more) := by
  induction xs with
  | nil => cases h
  | cons y ys ih =>
    cases ys with
    | nil =>
      obtain rfl := List.mem_singleton.1 h
      exact ⟨"", "", by rw [String.intercalate_singleton, String.append_empty, String.empty_append], Or.inl rfl⟩
    | cons z zs =>
      have hcons : String.intercalate ", " (y :: z :: zs) = y ++ ", " ++ String.intercalate ", " (z :: zs) :=
        String.intercalate_cons_cons
      rcases List.mem_cons.1 h with rfl | h
      · exact ⟨"", ", " ++ String.intercalate ", " (z :: zs), by rw [hcons, String.append_assoc, String.empty_append], Or.inr ⟨_, rfl⟩⟩
      · obtain ⟨front, behind, heq, hbehind⟩ := ih h
        exact ⟨y ++ ", " ++ front, behind, by rw [hcons, heq]; simp only [String.append_assoc], hbehind⟩

/-- The text in front of the parameters of a method. -/
def opening (m : MethodDef) : String := (if m.signature.isAsync then "async def " else "def ") ++ m.name ++ "("

theorem formal_of_given {function : Target} {p : Param} {f : Formal} {text : String} (h : formalOf b function p = .ok f)
    (hgiven : p.IsGiven text) (hliteral : isLiteral text = true) :
    f = { name := p.name, kind := p.kind, hint := p.hint.map Text.Quoted.quote, default := some (.literal text) } := by
  obtain ⟨hpositional, hdefault⟩ := hgiven
  obtain ⟨default, hread, h⟩ := Outcome.bind_eq_ok.1 h
  obtain ⟨name, hname, h⟩ := Outcome.bind_eq_ok.1 h
  cases h
  obtain rfl : default = some (.literal text) := by
    rw [defaultFor_eq hpositional] at hread
    unfold defaultOf at hread
    rw [hdefault] at hread
    dsimp only at hread
    rw [if_pos hliteral] at hread
    obtain ⟨_, -, hread⟩ := Outcome.bind_eq_ok.1 hread
    cases hread
    rfl
  rw [nodeName_eq_ok hname]

/-- What a parameter shows behind its name and its hint. -/
theorem print_formal_of_given {function : Target} {p : Param} {f : Formal} {text init : String} (h : formalOf b function p = .ok f)
    (hgiven : p.IsGiven text) (hliteral : isLiteral text = true) (htext : paramText? text = some init) :
    f.print = p.name ++ annotation p.hint ++ " = " ++ init := by
  have hstars : starsOf p.kind = "" := by
    have hpositional := hgiven.1
    cases hkind : p.kind <;> rw [hkind] at hpositional <;> first | rfl | cases hpositional
  have hdefault : (Default.literal text).print = init := by
    unfold Default.print
    dsimp only
    rw [htext]
    rfl
  rw [formal_of_given h hgiven hliteral]
  unfold Formal.print annotation
  dsimp only
  rw [hstars, Option.map_map, Option.map_some, hdefault]
  simp only [Option.getD_some, String.append_assoc, String.empty_append, Function.comp_def]

/-- A parameter that is not variadic stays in the list of its method. -/
theorem mem_formalsOf {m : MethodDef} {receiver : Option String} {formals : List Formal} (h : formalsOf b m receiver = .ok formals)
    {p : Param} (hp : p ∈ m.signature.params) (hpositional : p.kind.isVariadic = false) :
    ∃ function, ∃ f ∈ formals, formalOf b function p = .ok f := by
  obtain ⟨reference, -, h⟩ := Outcome.bind_eq_ok.1 h
  obtain ⟨fs, hfs, h⟩ := Outcome.bind_eq_ok.1 h
  obtain ⟨f, hf, hpf⟩ := Outcome.exists_mem_of_forall₂ (Outcome.mapM_eq_ok.1 hfs) hp
  refine ⟨_, f, ?_, hpf⟩
  have hkind : f.kind = p.kind := by
    obtain ⟨default, -, hpf⟩ := Outcome.bind_eq_ok.1 hpf
    obtain ⟨name, -, hpf⟩ := Outcome.bind_eq_ok.1 hpf
    cases hpf
    rfl
  have hsorted : f ∈ sortFormals fs := by
    rw [← hkind] at hpositional
    unfold sortFormals
    simp only [List.mem_append, List.mem_filter, hf, true_and, beq_iff_eq]
    cases hk : f.kind <;> rw [hk] at hpositional <;> simp_all [ParamKind.isVariadic]
  dsimp only at h
  split at h
  · cases h
    unfold withReceiver
    split
    · exact hsorted
    · exact List.mem_cons_of_mem _ hsorted
  · cases h

/-- Where a parameter that is not variadic stands in the line of its method: behind it comes a comma or the end of the list. -/
theorem exists_header {m : MethodDef} {c : Method} (hc : methodOf b m = .ok c) {f : Formal} (hf : f ∈ c.formals)
    (hpositional : f.kind.isVariadic = false) : ∃ front behind, opening m ++ front ++ f.print ++ behind ∈ c.print ∧
      ((∃ more, behind = ", " ++ more) ∨ behind = "):") := by
  obtain ⟨hname, -⟩ := methodOf_eq_ok hc
  have hasync : c.isAsync = m.signature.isAsync := by
    obtain ⟨name, -, hc⟩ := Outcome.bind_eq_ok.1 hc
    obtain ⟨formals, -, hc⟩ := Outcome.bind_eq_ok.1 hc
    obtain ⟨body, -, hc⟩ := Outcome.bind_eq_ok.1 hc
    cases hc
    rfl
  have hprinted : ∃ front behind, printFormals c.formals = front ++ f.print ++ behind ∧ (behind = "" ∨ ∃ more, behind = ", " ++ more) := by
    have hof : f.print ∈ (c.formals.filter fun g => g.kind == f.kind).map Formal.print :=
      List.mem_map_of_mem (List.mem_filter.2 ⟨hf, beq_self_eq_true _⟩)
    unfold printFormals
    refine exists_of_intercalate ?_
    cases hkind : f.kind <;> rw [hkind] at hof hpositional
    case varPositional => cases hpositional
    case varKeyword => cases hpositional
    all_goals simp only [List.mem_append, hof, true_or, or_true]
  obtain ⟨front, behind, hprint, hbehind⟩ := hprinted
  refine ⟨front, behind ++ "):", ?_, ?_⟩
  · have hheader : opening m ++ front ++ f.print ++ (behind ++ "):") =
        (if c.isAsync then "async def " else "def ") ++ c.name ++ "(" ++ printFormals c.formals ++ "):" := by
      rw [hprint, hasync, hname]
      unfold opening
      simp only [String.append_assoc]
    rw [hheader]
    unfold Method.print
    exact List.mem_append_left _ (List.mem_append_right _ (List.mem_singleton.2 rfl))
  · rcases hbehind with rfl | ⟨more, rfl⟩
    · exact Or.inr rfl
    · exact Or.inl ⟨more ++ "):", String.append_assoc ..⟩

/-- A method with a default that is a tuple without brackets, and with one that has brackets. -/
def pairing : MethodDef where
  name := "m"
  memberId := "m"
  signature := { name := "m", params := [{ name := "a", default := some "1," }, { name := "b", default := some "()" }] }
  reference := "app:B"
  core := .call ⟨"app:B", "m"⟩

/-- A class with that method, and with a field whose value is a tuple without brackets. -/
def pairs : Blueprint where
  header := { name := "C", base := "app:B" }
  fields := [{ name := "x", default := some "1, 2", origin := "app:B", hint := some "tuple", visibility := .guarded }]
  methods := [pairing]
  aliases := [("app:B", "B")]

end Source

end Amalgam
